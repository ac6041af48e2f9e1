import Timetable.Proofs.Merge.Zip
import Timetable.Proofs.Slot.Conflict
import Timetable.Proofs.Slot.Made

/-!
# Where zipped schedules collide

Schedules that are laid on top of each other bring a layer to every slot of the result: the slot
that comes to lie there, or an empty one. The schedules can be zipped exactly when no two layers of
one slot share a resource. Otherwise they collide in the first slot in which this is not so. There,
the fault names a resource that the first layer to collide shares with those before it, and that
layer shares no smaller one with them.

* `layer`, `layersAt`, `unite_linedUp`: what the schedules bring to a slot of the result.
* `Slot.SharesNone`, `FirstShared`: slots that fit together, and the resource on which others
  collide.
* `exists_unite_iff`, `unite_eq_error_iff`: uniting layers one after the other.
* `exists_zip_iff`, `zip_eq_error_iff`: when schedules can be zipped, and how they collide.
* `zip_exact`: both, and what is in the result.
-/

namespace Timetable

variable {ω : Type}

/-! ### Layers -/

/-- The slot of a schedule that comes to lie at index `k` of a result of `n` slots. Lined up by
their first slots, schedules keep their indices; lined up by their last slots, they are moved to the
end. Where a schedule has no slot its layer is empty. -/
def layer (align : Alignment) (n k : Nat) (slots : List (Slot ω)) : Slot ω :=
  match align with
  | .left => slots[k]?.getD .empty
  | .right | .first =>
    if n - slots.length ≤ k then slots[k - (n - slots.length)]?.getD .empty else .empty

/-- What the schedules bring to the slot `k` of the result, in order. -/
def layersAt (schedules : List (List (Slot ω))) (align : Alignment) (k : Nat) : List (Slot ω) :=
  schedules.map (layer align (longest schedules) k)

theorem zipSource?_getD {align : Alignment} {n k : Nat} {slots : List (Slot ω)}
    (h : slots.length ≤ n) : (zipSource? align n k slots).getD .empty = layer align n k slots := by
  have hreaches : n ≤ slots.length + k ↔ n - slots.length ≤ k := by omega
  have hindex : slots.length + k - n = k - (n - slots.length) := by omega
  cases align with
  | left => rfl
  | right | first =>
    rw [zipSource?, layer, hindex]
    simp only [hreaches]
    split <;> rfl

/-- A slot of the result holds what its layers hold. -/
theorem flatMap_linedUp_eq (schedules : List (List (Slot ω))) (align : Alignment) (k : Nat) :
    (linedUp schedules align k).flatMap Slot.operations =
      (layersAt schedules align k).flatMap Slot.operations := by
  rw [linedUp, layersAt, List.filterMap_eq_flatMap_toList, List.flatMap_assoc, List.flatMap_map]
  refine List.flatMap_congr fun slots hslots => ?_
  rw [← zipSource?_getD (longest_le_iff.1 (Nat.le_refl _) slots hslots)]
  cases zipSource? align (longest schedules) k slots <;> simp [Slot.empty]

variable [Operation ω]

theorem sound_layer (align : Alignment) (n k : Nat) {slots : List (Slot ω)}
    (h : ∀ slot ∈ slots, slot.Sound) : (layer align n k slots).Sound := by
  have hat : ∀ x : Nat, (slots[x]?.getD Slot.empty).Sound := by
    intro x
    cases hslot : slots[x]? with
    | none => exact Slot.sound_empty
    | some slot => exact h slot (List.mem_of_getElem? hslot)
  cases align with
  | left => exact hat k
  | right | first =>
    rw [layer]
    split
    · exact hat _
    · exact Slot.sound_empty

/-- Uniting a slot with an empty one changes nothing, so missing slots can be left out. -/
theorem unite_filterMap {α : Type} (k : Nat) (f : α → Option (Slot ω)) (l : List α) :
    ∀ merged : Slot ω, unite k merged (l.filterMap f) =
      unite k merged (l.map fun a => (f a).getD .empty) := by
  induction l with
  | nil => exact fun _ => rfl
  | cons a l ih =>
    intro merged
    rw [List.map_cons, List.filterMap_cons]
    cases f a with
    | none => exact ih merged
    | some slot => exact bind_congr fun next => ih next

/-- The slots that meet in one slot of the result are united like the layers. -/
theorem unite_linedUp (schedules : List (List (Slot ω))) (align : Alignment) (k : Nat)
    (merged : Slot ω) :
    unite k merged (linedUp schedules align k) = unite k merged (layersAt schedules align k) := by
  rw [linedUp, unite_filterMap, layersAt]
  refine congrArg _ (List.map_congr_left fun slots hslots => zipSource?_getD ?_)
  exact longest_le_iff.1 (Nat.le_refl _) slots hslots

/-! ### Layers that share resources -/

/-- No operation of the one slot shares a resource with one of the other. -/
def Slot.SharesNone (s t : Slot ω) : Prop :=
  ∀ a ∈ s.operations, ∀ b ∈ t.operations, ¬SharesResource a b

/-- The first layer that shares a resource with those before it shares this one, and no smaller
one. -/
def FirstShared (layers : List (Slot ω)) (r : Resource) : Prop :=
  ∃ before slot after, layers = before ++ slot :: after ∧ before.Pairwise Slot.SharesNone ∧
    Slot.LeastShared (.ofApart (before.flatMap Slot.operations)) slot r

theorem Slot.sharesNone_iff_disjoint {s t : Slot ω} : s.SharesNone t ↔
    (s.operations.flatMap resources).Disjoint (t.operations.flatMap resources) := by
  constructor
  · intro hnone r hs ht
    obtain ⟨a, ha, hra⟩ := List.mem_flatMap.1 hs
    obtain ⟨b, hb, hrb⟩ := List.mem_flatMap.1 ht
    exact hnone a ha b hb ⟨r, hra, hrb⟩
  · intro hdisjoint a ha b hb hshare
    obtain ⟨r, hra, hrb⟩ := hshare
    exact hdisjoint (List.mem_flatMap.2 ⟨a, ha, hra⟩) (List.mem_flatMap.2 ⟨b, hb, hrb⟩)

theorem nodup_iff_pairwise_sharesNone {layers : List (Slot ω)}
    (h : ∀ slot ∈ layers, slot.Sound) :
    ((layers.flatMap Slot.operations).flatMap resources).Nodup ↔
      layers.Pairwise Slot.SharesNone := by
  have hnodup : ∀ slot ∈ layers, (slot.operations.flatMap resources).Nodup :=
    fun slot hslot => (h slot hslot).usesOnce
  rw [List.flatMap_assoc, List.nodup_flatMap, and_iff_right hnodup]
  exact List.Pairwise.iff fun s t => Slot.sharesNone_iff_disjoint.symm

theorem FirstShared.not_pairwise {layers : List (Slot ω)} {r : Resource}
    (h : FirstShared layers r) : ¬layers.Pairwise Slot.SharesNone := by
  obtain ⟨before, slot, after, rfl, -, ⟨hbefore, hslot⟩, -⟩ := h
  intro hnone
  obtain ⟨a, ha, hra⟩ := List.mem_flatMap.1 hbefore
  obtain ⟨s, hs, has⟩ := List.mem_flatMap.1 ha
  obtain ⟨b, hb, hrb⟩ := List.mem_flatMap.1 hslot
  exact (List.pairwise_append.1 hnone).2.2 s hs slot List.mem_cons_self a has b hb ⟨r, hra, hrb⟩

/-- An empty layer in front shares nothing. -/
theorem pairwise_empty_cons {layers : List (Slot ω)} :
    (Slot.empty :: layers).Pairwise Slot.SharesNone ↔ layers.Pairwise Slot.SharesNone :=
  List.pairwise_cons.trans (and_iff_right fun _ _ _ ha => absurd ha List.not_mem_nil)

theorem firstShared_empty_cons {layers : List (Slot ω)} {r : Resource} :
    FirstShared (.empty :: layers) r ↔ FirstShared layers r := by
  constructor
  · intro h
    obtain ⟨before, slot, after, heq, hnone, hleast⟩ := h
    cases before with
    | nil => exact absurd hleast.1.1 List.not_mem_nil
    | cons s before =>
      obtain ⟨rfl, rfl⟩ := List.cons.inj heq
      exact ⟨before, slot, after, rfl, pairwise_empty_cons.1 hnone, hleast⟩
  · intro h
    obtain ⟨before, slot, after, rfl, hnone, hleast⟩ := h
    exact ⟨.empty :: before, slot, after, rfl, pairwise_empty_cons.2 hnone, hleast⟩

/-- Two layers in front share nothing with each other, and as one layer nothing with the rest. -/
theorem pairwise_cons_cons {s t : Slot ω} {layers : List (Slot ω)} :
    (s :: t :: layers).Pairwise Slot.SharesNone ↔
      s.SharesNone t ∧
        (.ofApart (s.operations ++ t.operations) :: layers).Pairwise Slot.SharesNone := by
  have hjoin : ∀ u : Slot ω, (Slot.ofApart (s.operations ++ t.operations)).SharesNone u ↔
      s.SharesNone u ∧ t.SharesNone u := fun u => List.forall_mem_append
  simp only [List.pairwise_cons, List.forall_mem_cons, hjoin, imp_and, forall_and, and_assoc]

/-- Two layers in front share a resource, or they count as one layer. -/
theorem firstShared_cons_cons {s t : Slot ω} {layers : List (Slot ω)} {r : Resource} :
    FirstShared (s :: t :: layers) r ↔ Slot.LeastShared s t r ∨
      s.SharesNone t ∧ FirstShared (.ofApart (s.operations ++ t.operations) :: layers) r := by
  have hops : ∀ before : List (Slot ω), (s :: t :: before).flatMap Slot.operations =
      (.ofApart (s.operations ++ t.operations) :: before).flatMap Slot.operations := by
    intro before
    simp
  constructor
  · intro h
    obtain ⟨before, slot, after, heq, hnone, hleast⟩ := h
    rcases before with _ | ⟨s', _ | ⟨t', before⟩⟩
    · exact absurd hleast.1.1 List.not_mem_nil
    · obtain ⟨rfl, htail⟩ := List.cons.inj heq
      obtain ⟨rfl, -⟩ := List.cons.inj htail
      rw [List.flatMap_singleton] at hleast
      exact .inl hleast
    · obtain ⟨rfl, htail⟩ := List.cons.inj heq
      obtain ⟨rfl, rfl⟩ := List.cons.inj htail
      obtain ⟨hpair, hnone⟩ := pairwise_cons_cons.1 hnone
      rw [hops] at hleast
      exact .inr ⟨hpair, _ :: before, slot, after, rfl, hnone, hleast⟩
  · intro h
    rcases h with hleast | ⟨hpair, before, slot, after, heq, hnone, hleast⟩
    · refine ⟨[s], t, layers, rfl, List.pairwise_singleton _ _, ?_⟩
      rw [List.flatMap_singleton]
      exact hleast
    · cases before with
      | nil => exact absurd hleast.1.1 List.not_mem_nil
      | cons both before =>
        obtain ⟨rfl, rfl⟩ := List.cons.inj heq
        rw [← hops] at hleast
        exact ⟨s :: t :: before, slot, after, rfl, pairwise_cons_cons.2 ⟨hpair, hnone⟩, hleast⟩

/-! ### Uniting layers -/

theorem Slot.SharesNone.sound {s t : Slot ω} (h : s.SharesNone t) (hs : s.Sound) (ht : t.Sound) :
    (Slot.ofApart (s.operations ++ t.operations)).Sound := by
  apply Slot.sound_ofApart
  rw [List.flatMap_append]
  exact hs.usesOnce.append ht.usesOnce (Slot.sharesNone_iff_disjoint.1 h)

theorem disjointUnion_eq_ok_iff {s t both : Slot ω} (hs : s.Sound) (ht : t.Sound) :
    s.disjointUnion t = .ok both ↔
      s.SharesNone t ∧ both = .ofApart (s.operations ++ t.operations) := by
  rw [Slot.sharesNone_iff_disjoint]
  constructor
  · intro h
    have hpush := Slot.Sound.pushAll_of_disjointUnion h
    have hboth := hs.pushAll hpush
    have hnd := hboth.usesOnce
    have heq := hboth.eq_ofApart
    rw [Slot.operations_of_pushAll hpush] at hnd heq
    rw [List.flatMap_append] at hnd
    exact ⟨List.disjoint_of_nodup_append hnd, heq⟩
  · intro h
    obtain ⟨hdisjoint, rfl⟩ := h
    obtain ⟨both, hboth, hsound, hops⟩ :=
      hs.disjointUnion_eq_ok ht fun r hrt hrs => hdisjoint hrs hrt
    rw [hboth, hsound.eq_ofApart, hops]

section Unite

variable {k : Nat} {merged slot united : Slot ω} {slots : List (Slot ω)} {e : Fault}

/-- The first of the slots joins what has been united, or collides with it. -/
theorem unite_cons_eq_ok_iff (hmerged : merged.Sound) (hslot : slot.Sound) :
    unite k merged (slot :: slots) = .ok united ↔ merged.SharesNone slot ∧
      unite k (.ofApart (merged.operations ++ slot.operations)) slots = .ok united := by
  simp only [unite, bind_eq_ok_iff, mapError_eq_ok_iff, disjointUnion_eq_ok_iff hmerged hslot,
    and_assoc, exists_and_left, exists_eq_left]

theorem unite_cons_eq_error_iff (hmerged : merged.Sound) (hslot : slot.Sound) :
    unite k merged (slot :: slots) = .error e ↔
      (∃ r, e = .collision k r ∧ Slot.LeastShared merged slot r) ∨ merged.SharesNone slot ∧
        unite k (.ofApart (merged.operations ++ slot.operations)) slots = .error e := by
  have hhere : (merged.disjointUnion slot).mapError (Fault.inMerge k) = .error e ↔
      ∃ r, e = .collision k r ∧ Slot.LeastShared merged slot r := by
    rw [mapError_eq_error_iff]
    constructor
    · intro h
      obtain ⟨fault, hfault, rfl⟩ := h
      obtain ⟨r, rfl, hr⟩ := (hmerged.disjointUnion_eq_error_iff hslot).1 hfault
      exact ⟨r, rfl, hr⟩
    · intro h
      obtain ⟨r, rfl, hr⟩ := h
      exact ⟨.overlap r, (hmerged.disjointUnion_eq_error_iff hslot).2 ⟨r, rfl, hr⟩, rfl⟩
  rw [unite, bind_eq_error_iff, hhere]
  simp only [mapError_eq_ok_iff, disjointUnion_eq_ok_iff hmerged hslot, and_assoc, exists_and_left,
    exists_eq_left]

end Unite

/-- Slots are united when none of them shares a resource with another one. -/
theorem exists_unite_iff {k : Nat} {slots : List (Slot ω)} (hslots : ∀ slot ∈ slots, slot.Sound) :
    ∀ {merged : Slot ω}, merged.Sound →
      ((∃ united, unite k merged slots = .ok united) ↔
        (merged :: slots).Pairwise Slot.SharesNone) := by
  induction slots with
  | nil => exact fun _ => iff_of_true ⟨_, rfl⟩ (List.pairwise_singleton _ _)
  | cons slot slots ih =>
    intro merged hmerged
    obtain ⟨hslot, hslots⟩ := List.forall_mem_cons.1 hslots
    rw [pairwise_cons_cons]
    simp only [unite_cons_eq_ok_iff hmerged hslot, exists_and_left]
    exact and_congr_right fun hnone => ih hslots (hnone.sound hmerged hslot)

/-- Otherwise the fault names the resource on which they collide. -/
theorem unite_eq_error_iff {k : Nat} {slots : List (Slot ω)} (hslots : ∀ slot ∈ slots, slot.Sound)
    {e : Fault} : ∀ {merged : Slot ω}, merged.Sound →
      (unite k merged slots = .error e ↔
        ∃ r, e = .collision k r ∧ FirstShared (merged :: slots) r) := by
  induction slots with
  | nil =>
    intro merged _
    refine iff_of_false (nomatch ·) fun h => ?_
    obtain ⟨r, -, hfirst⟩ := h
    exact hfirst.not_pairwise (List.pairwise_singleton _ _)
  | cons slot slots ih =>
    intro merged hmerged
    obtain ⟨hslot, hslots⟩ := List.forall_mem_cons.1 hslots
    rw [unite_cons_eq_error_iff hmerged hslot,
      and_congr_right fun hnone => ih hslots (hnone.sound hmerged hslot)]
    simp only [firstShared_cons_cons, and_or_left, exists_or, ← exists_and_left, and_left_comm]

/-! ### Zipping schedules -/

/-- The first slot whose layers cannot be united decides. -/
theorem zipFrom_eq_error_iff {schedules : List (List (Slot ω))} {align : Alignment} {count : Nat}
    {e : Fault} : ∀ {k : Nat}, zipFrom schedules align k count = .error e ↔
      ∃ j, (k ≤ j ∧ j < k + count) ∧
        (∀ i, k ≤ i → i < j → ∃ united, unite i .empty (layersAt schedules align i) = .ok united) ∧
        unite j .empty (layersAt schedules align j) = .error e := by
  induction count with
  | zero =>
    intro k
    refine iff_of_false (nomatch ·) fun h => ?_
    obtain ⟨j, ⟨hle, hlt⟩, -⟩ := h
    exact Nat.not_lt.2 hle hlt
  | succ count ih =>
    intro k
    have hlater : ∀ slot : Slot ω, (do
        let later ← zipFrom schedules align (k + 1) count
        return slot :: later : Except Fault (List (Slot ω))) = .error e ↔
        zipFrom schedules align (k + 1) count = .error e := by
      intro slot
      rw [bind_eq_error_iff]
      refine or_iff_left fun h => ?_
      obtain ⟨later, -, h⟩ := h
      cases h
    rw [zipFrom, ← linedUp, unite_linedUp, bind_eq_error_iff]
    simp only [hlater, ih]
    constructor
    · intro h
      rcases h with h | ⟨slot, hslot, j, ⟨hle, hlt⟩, hbefore, hj⟩
      · refine ⟨k, ⟨Nat.le_refl k, by omega⟩, fun i hi hlt => ?_, h⟩
        exact absurd hlt (Nat.not_lt.2 hi)
      · refine ⟨j, ⟨by omega, by omega⟩, fun i hi hlt => ?_, hj⟩
        rcases Nat.lt_or_eq_of_le hi with hi | rfl
        · exact hbefore i hi hlt
        · exact ⟨slot, hslot⟩
    · intro h
      obtain ⟨j, ⟨hle, hlt⟩, hbefore, hj⟩ := h
      rcases Nat.lt_or_eq_of_le hle with hlt' | rfl
      · obtain ⟨slot, hslot⟩ := hbefore k (Nat.le_refl k) hlt'
        refine .inr ⟨slot, hslot, j, ⟨hlt', by omega⟩, fun i hi => ?_, hj⟩
        exact hbefore i (Nat.le_of_succ_le hi)
      · exact .inl hj

section Zip

variable {schedules : List (List (Slot ω))} {align : Alignment}
  (hs : ∀ slots ∈ schedules, ∀ slot ∈ slots, slot.Sound)

include hs

theorem sound_layersAt (k : Nat) : ∀ slot ∈ layersAt schedules align k, slot.Sound := by
  intro slot hslot
  obtain ⟨slots, hslots, rfl⟩ := List.mem_map.1 hslot
  exact sound_layer align _ k (hs slots hslots)

theorem exists_unite_layersAt_iff {k : Nat} :
    (∃ united, unite k .empty (layersAt schedules align k) = .ok united) ↔
      (layersAt schedules align k).Pairwise Slot.SharesNone :=
  (exists_unite_iff (sound_layersAt hs k) Slot.sound_empty).trans pairwise_empty_cons

/-- Schedules collide in the first slot in which two of them share a resource. -/
theorem zip_eq_error_iff {e : Fault} : zip schedules align = .error e ↔
    ∃ k r, e = .collision k r ∧
      IsLeast {k | k < longest schedules ∧
        ¬(layersAt schedules align k).Pairwise Slot.SharesNone} k ∧
      FirstShared (layersAt schedules align k) r := by
  have hunite : ∀ k, unite k .empty (layersAt schedules align k) = .error e ↔
      ∃ r, e = .collision k r ∧ FirstShared (layersAt schedules align k) r := by
    intro k
    rw [unite_eq_error_iff (sound_layersAt hs k) Slot.sound_empty]
    simp only [firstShared_empty_cons]
  simp only [zip, zipFrom_eq_error_iff, exists_unite_layersAt_iff hs, hunite, Nat.zero_le,
    true_and, Nat.zero_add, forall_true_left]
  constructor
  · intro h
    obtain ⟨k, hk, hbefore, r, he, hfirst⟩ := h
    refine ⟨k, r, he, ⟨⟨hk, hfirst.not_pairwise⟩, fun i hi => ?_⟩, hfirst⟩
    exact Nat.le_of_not_lt fun hlt => hi.2 (hbefore i hlt)
  · intro h
    obtain ⟨k, r, he, hleast, hfirst⟩ := h
    refine ⟨k, hleast.1.1, fun i hlt => not_not.1 fun hshares => ?_, r, he, hfirst⟩
    exact Nat.not_lt.2 (hleast.2 ⟨Nat.lt_trans hlt hleast.1.1, hshares⟩) hlt

/-- Schedules can be zipped when no two of them share a resource in one slot. -/
theorem exists_zip_iff : (∃ merged, zip schedules align = .ok merged) ↔
    ∀ k < longest schedules, (layersAt schedules align k).Pairwise Slot.SharesNone := by
  constructor
  · intro h k
    obtain ⟨merged, hmerged⟩ := h
    -- If all slots before this one are united and this one is not, there is a fault.
    induction k using Nat.strong_induction_on with
    | h k ih =>
      intro hk
      rw [← exists_unite_layersAt_iff hs]
      cases hunite : unite k .empty (layersAt schedules align k) with
      | ok united => exact ⟨united, rfl⟩
      | error e =>
        have herror : zip schedules align = .error e :=
          zipFrom_eq_error_iff.2 ⟨k, ⟨Nat.zero_le k, by omega⟩, fun i _ hi =>
            (exists_unite_layersAt_iff hs).2 (ih i hi (Nat.lt_trans hi hk)), hunite⟩
        rw [hmerged] at herror
        cases herror
  · intro h
    cases hzip : zip schedules align with
    | ok merged => exact ⟨merged, rfl⟩
    | error e =>
      obtain ⟨k, -, -, hleast, -⟩ := (zip_eq_error_iff hs).1 hzip
      exact absurd (h k hleast.1.1) hleast.1.2

/-- **Schedules can be zipped exactly when no two of them share a resource in one slot.** Every slot
of the result then holds what the schedules bring to it, in their order. Otherwise the fault names
the first slot in which two schedules share a resource, and the least resource that the first
schedule to collide there shares with those before it. -/
theorem zip_exact (align : Alignment) :
    (∀ n, longest schedules ≤ n ↔ ∀ slots ∈ schedules, slots.length ≤ n) ∧
    ((∃ merged, zip schedules align = .ok merged) ↔
      ∀ k < longest schedules, (layersAt schedules align k).Pairwise Slot.SharesNone) ∧
    (∀ merged, zip schedules align = .ok merged →
      merged.length = longest schedules ∧ (∀ slot ∈ merged, slot.Sound) ∧
        ∀ k < longest schedules,
          operationsAt merged k = (layersAt schedules align k).flatMap Slot.operations) ∧
    ∀ e, zip schedules align = .error e ↔
      ∃ k r, e = .collision k r ∧
        IsLeast {k | k < longest schedules ∧
          ¬(layersAt schedules align k).Pairwise Slot.SharesNone} k ∧
        FirstShared (layersAt schedules align k) r := by
  refine ⟨fun n => longest_le_iff, exists_zip_iff hs, fun merged hmerged => ?_,
    fun e => zip_eq_error_iff hs⟩
  have hnodup : ∀ k < longest schedules,
      (((linedUp schedules align k).flatMap Slot.operations).flatMap resources).Nodup := by
    intro k hk
    rw [flatMap_linedUp_eq, nodup_iff_pairwise_sharesNone (sound_layersAt hs k)]
    exact (exists_zip_iff hs).1 ⟨merged, hmerged⟩ k hk
  obtain ⟨merged', hmerged', hlength, hsound, hops⟩ := zip_eq_ok hs hnodup
  obtain rfl : merged = merged' := Except.ok.inj (hmerged.symm.trans hmerged')
  refine ⟨hlength, hsound, fun k hk => ?_⟩
  rw [hops k hk, flatMap_linedUp_eq]

end Zip

/-- Lined up by their last slots, three schedules collide in the last slot only, where the third one
shares two resources with the second and one with the first. Lined up by their first slots they can
be zipped. -/
theorem zip_exact_three :
    let a : Instruction := { name := "a", resources := [.line 5] }
    let b : Instruction := { name := "b", resources := [.line 1] }
    let c : Instruction := { name := "c", resources := [.line 2] }
    let d : Instruction := { name := "d", resources := [.line 3, .line 4] }
    let x : Instruction := { name := "x", resources := [.line 0] }
    let y : Instruction := { name := "y", resources := [.line 5, .line 4, .line 3] }
    let schedules := [[[a]], [[b], [c], [d]], [[x], [y]]].map fun slots => slots.map Slot.ofApart
    (∀ slots ∈ schedules, ∀ slot ∈ slots, slot.Sound) ∧
    (zip schedules .right = .error (.collision 2 (.line 3)) ∧
      IsLeast {k | k < longest schedules ∧
        ¬(layersAt schedules .right k).Pairwise Slot.SharesNone} 2 ∧
      FirstShared (layersAt schedules .right 2) (.line 3)) ∧
    ∃ merged, zip schedules .left = .ok merged ∧ merged.length = 3 ∧
      operationsAt merged 0 = (layersAt schedules .left 0).flatMap Slot.operations := by
  intro a b c d x y schedules
  have hs : ∀ slots ∈ schedules, ∀ slot ∈ slots, slot.Sound := by
    have hnodup : ∀ lists ∈ [[[a]], [[b], [c], [d]], [[x], [y]]], ∀ ops ∈ lists,
        (ops.flatMap resources).Nodup := by decide
    intro slots hslots
    obtain ⟨lists, hlists, rfl⟩ := List.mem_map.1 hslots
    exact Slot.sound_map_ofApart (hnodup lists hlists)
  have hcollide : zip schedules .right = .error (.collision 2 (.line 3)) := rfl
  obtain ⟨-, -, -, herror⟩ := zip_exact hs .right
  obtain ⟨k, r, heq, hleast, hfirst⟩ := (herror _).1 hcollide
  cases heq
  obtain ⟨-, -, hok, -⟩ := zip_exact hs .left
  have hzip : (zip schedules .left).isOk = true := by decide +kernel
  refine ⟨hs, ⟨hcollide, hleast, hfirst⟩, ?_⟩
  cases hmerged : zip schedules .left with
  | error e =>
    rw [hmerged] at hzip
    cases hzip
  | ok merged =>
    obtain ⟨hlength, -, hops⟩ := hok merged hmerged
    exact ⟨merged, rfl, hlength, hops 0 (by decide)⟩

end Timetable
