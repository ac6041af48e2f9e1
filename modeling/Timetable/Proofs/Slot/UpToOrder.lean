import Timetable.Proofs.Slot.Conflict
import Mathlib.Data.List.Perm.Subperm

/-!
# Comparing slots up to order

Two slots are the same if they have equally many operations and the second one holds each operation
of the first, and what the second one holds is looked up at the first resource of the operation. The
operations of a slot share no resource, so if all of them act on something, each one is found by its
first resource, and different ones are found at different places. So the comparison that goes one
way only says that the operations agree up to their order.

* `UpToOrder`: two lists agree item by item, in some order.
* `Slot.Sound.holdsBy_eq`: a slot is asked about an operation at the place of its resources.
* `Slot.Sound.holdsBy_eq_any`: a slot holds what a look through its operations finds.
* `Slot.Sound.sameBy_iff_upToOrder`: slots are the same if their operations agree up to order.
* `Slot.sameBy_mono`, `Slot.listSameBy_iff_forall₂`: other ways to compare the operations, and lists
  of slots.
-/

namespace Timetable

/-! ### Lists and options

What a comparison knows of two items depends on where they come from, so the laws are about the
items that occur. -/

section

variable {α β γ : Type} {l : List α} {m : List β} {k : List γ}
variable {R : α → β → Prop} {S : β → γ → Prop} {T : α → γ → Prop}

namespace OptionRel

variable {x : Option α} {y : Option β} {z : Option γ}

theorem imp_mem {R' : α → β → Prop} (h : Option.Rel R x y)
    (himp : ∀ a, x = some a → ∀ b, y = some b → R a b → R' a b) : Option.Rel R' x y := by
  cases h with
  | none => exact .none
  | some hab => exact .some (himp _ rfl _ rfl hab)

theorem swap_mem {R' : β → α → Prop} (h : Option.Rel R x y)
    (hswap : ∀ a, x = some a → ∀ b, y = some b → R a b → R' b a) : Option.Rel R' y x := by
  cases h with
  | none => exact .none
  | some hab => exact .some (hswap _ rfl _ rfl hab)

theorem trans_mem (h : Option.Rel R x y) (h' : Option.Rel S y z)
    (htrans : ∀ a, x = some a → ∀ b, y = some b → ∀ c, z = some c → R a b → S b c → T a c) :
    Option.Rel T x z := by
  cases h with
  | none =>
    cases h'
    exact .none
  | some hab =>
    cases h' with
    | some hbc => exact .some (htrans _ rfl _ rfl _ rfl hab hbc)

end OptionRel

/-- The items of the lists are in the relation pair by pair, when those of the second one have been
put into the right order. -/
def UpToOrder (R : α → β → Prop) (l : List α) (m : List β) : Prop :=
  ∃ ordered, List.Forall₂ R l ordered ∧ ordered.Perm m

theorem forall₂_imp_mem {R' : α → β → Prop} (h : List.Forall₂ R l m)
    (himp : ∀ a ∈ l, ∀ b ∈ m, R a b → R' a b) : List.Forall₂ R' l m := by
  induction h with
  | nil => exact .nil
  | cons hab _ ih =>
    refine .cons (himp _ List.mem_cons_self _ List.mem_cons_self hab) (ih fun a ha b hb => ?_)
    exact himp a (List.mem_cons_of_mem _ ha) b (List.mem_cons_of_mem _ hb)

theorem forall₂_trans_mem (h : List.Forall₂ R l m) (h' : List.Forall₂ S m k)
    (htrans : ∀ a ∈ l, ∀ b ∈ m, ∀ c ∈ k, R a b → S b c → T a c) : List.Forall₂ T l k := by
  induction h generalizing k with
  | nil =>
    cases h'
    exact .nil
  | cons hab _ ih =>
    cases h' with
    | cons hbc h' =>
      have hhead := htrans _ List.mem_cons_self _ List.mem_cons_self _ List.mem_cons_self hab hbc
      refine .cons hhead (ih h' fun a ha b hb c hc => ?_)
      exact htrans a (List.mem_cons_of_mem _ ha) b (List.mem_cons_of_mem _ hb) c
        (List.mem_cons_of_mem _ hc)

/-- To choose an item for each item of a list is to choose a list. -/
theorem exists_forall₂_iff : (∃ m, List.Forall₂ R l m) ↔ ∀ a ∈ l, ∃ b, R a b := by
  induction l with
  | nil => exact iff_of_true ⟨[], .nil⟩ nofun
  | cons a l ih =>
    rw [List.forall_mem_cons, ← ih]
    constructor
    · rintro ⟨m, h⟩
      obtain ⟨b, m, hab, h, -⟩ := List.forall₂_cons_left_iff.1 h
      exact ⟨⟨b, hab⟩, m, h⟩
    · rintro ⟨⟨b, hab⟩, m, h⟩
      exact ⟨b :: m, .cons hab h⟩

/-- Items with something of their own are different. -/
theorem nodup_of_nodup_flatMap {f : α → List β} (hnd : (l.flatMap f).Nodup)
    (hne : ∀ a ∈ l, f a ≠ []) : l.Nodup := by
  refine (List.nodup_flatMap.1 hnd).2.imp_of_mem fun {a b} ha _ hdisjoint hab => ?_
  obtain ⟨r, hr⟩ := List.exists_mem_of_ne_nil _ (hne a ha)
  exact hdisjoint hr (hab ▸ hr)

namespace UpToOrder

/-- It makes no difference which of the lists is put into order. -/
theorem swap_mem {R' : β → α → Prop} (h : UpToOrder R l m)
    (hswap : ∀ a ∈ l, ∀ b ∈ m, R a b → R' b a) : UpToOrder R' m l := by
  obtain ⟨ordered, hpairs, hperm⟩ := h
  have hback : List.Forall₂ R' ordered l :=
    (forall₂_imp_mem hpairs fun a ha b hb => hswap a ha b (hperm.mem_iff.1 hb)).flip
  exact List.perm_comp_forall₂ hperm.symm hback

theorem trans_mem (h : UpToOrder R l m) (h' : UpToOrder S m k)
    (htrans : ∀ a ∈ l, ∀ b ∈ m, ∀ c ∈ k, R a b → S b c → T a c) : UpToOrder T l k := by
  obtain ⟨ordered, hpairs, hperm⟩ := h
  obtain ⟨ordered', hpairs', hperm'⟩ := h'
  obtain ⟨reordered, hre, hrePerm⟩ := List.perm_comp_forall₂ hperm hpairs'
  refine ⟨reordered, forall₂_trans_mem hpairs hre fun a ha b hb c hc => ?_, hrePerm.trans hperm'⟩
  exact htrans a ha b (hperm.mem_iff.1 hb) c (hperm'.mem_iff.1 (hrePerm.mem_iff.1 hc))

end UpToOrder

end

namespace Slot

variable {ω : Type} {s t : Slot ω}

/-! ### Other ways to compare operations -/

section

variable {uses : ω → List Resource} {eq eq' : ω → ω → Bool}

/-- A slot that holds an operation has been asked about one of its own. -/
theorem exists_of_holdsBy {op : ω} (h : s.holdsBy uses eq op = true) :
    ∃ found ∈ s.operations, eq found op = true ∧
      ∀ eq' : ω → ω → Bool, eq' found op = true → s.holdsBy uses eq' op = true := by
  cases hr : (uses op).head? with
  | none =>
    simp only [holdsBy, hr] at h ⊢
    obtain ⟨found, hfound, heq⟩ := List.any_eq_true.1 h
    exact ⟨found, hfound, heq, fun eq' heq' => List.any_eq_true.2 ⟨found, hfound, heq'⟩⟩
  | some r =>
    cases hat : s.operationAt? r with
    | none => simp [holdsBy, hr, hat] at h
    | some found =>
      simp only [holdsBy, hr, hat] at h ⊢
      obtain ⟨p, -, hp⟩ := Option.bind_eq_some_iff.1 hat
      exact ⟨found, List.mem_of_getElem? hp, h, fun eq' => id⟩

theorem sameBy_mono
    (himp : ∀ a ∈ s.operations, ∀ b ∈ t.operations, eq b a = true → eq' b a = true)
    (h : s.sameBy uses eq t = true) : s.sameBy uses eq' t = true := by
  rw [sameBy, Bool.and_eq_true, List.all_eq_true] at h ⊢
  refine ⟨h.1, fun a ha => ?_⟩
  obtain ⟨b, hb, hab, hholds⟩ := exists_of_holdsBy (h.2 a ha)
  exact hholds eq' (himp a ha b hb hab)

/-- Lists of slots are compared slot by slot. -/
theorem listSameBy_iff_forall₂ {ss ts : List (Slot ω)} :
    listSameBy uses eq ss ts = true ↔
      List.Forall₂ (fun s t => s.sameBy uses eq t = true) ss ts := by
  induction ss generalizing ts with
  | nil => cases ts <;> simp [listSameBy]
  | cons s ss ih => cases ts <;> simp [listSameBy, ih]

end

/-! ### Slots whose operations act on something -/

variable [Operation ω] {eq : ω → ω → Bool}

namespace Sound

/-- An operation on the same resources as one of the slot is compared with that one. -/
theorem holdsBy_eq (hs : s.Sound) {op op' : ω} (hop : op ∈ s.operations)
    (hr : resources op' = resources op) (hne : resources op ≠ []) :
    s.holdsBy resources eq op' = eq op op' := by
  rw [holdsBy, hr]
  cases hrs : resources op with
  | nil => exact absurd hrs hne
  | cons r rs =>
    have hat : s.operationAt? r = some op :=
      hs.operationAt?_eq_some_iff.2 ⟨hop, hrs ▸ List.mem_cons_self⟩
    simp [hat]

/-- What a slot holds is what a look through its operations finds, if equal operations act on the
same resources. -/
theorem holdsBy_eq_any (hs : s.Sound) (heq : ∀ a b, eq a b = true → resources a = resources b)
    (op : ω) : s.holdsBy resources eq op = s.operations.any fun found => eq found op := by
  rw [Bool.eq_iff_iff, List.any_eq_true]
  constructor
  · intro h
    obtain ⟨found, hfound, hop, -⟩ := exists_of_holdsBy h
    exact ⟨found, hfound, hop⟩
  · rintro ⟨found, hfound, hop⟩
    by_cases hne : resources op = []
    · rw [holdsBy, hne]
      exact List.any_eq_true.2 ⟨found, hfound, hop⟩
    · have hr := heq found op hop
      rw [hs.holdsBy_eq hfound hr.symm (hr ▸ hne)]
      exact hop

/-- Slots are the same if their operations are equal up to order. Operations that are equal to
different ones share no resource and act on something, so they are different. -/
theorem sameBy_iff_upToOrder (hs : s.Sound) (ht : t.Sound)
    (hacts : ∀ op ∈ s.operations, resources op ≠ [])
    (heq : ∀ a b, eq a b = true → resources a = resources b) :
    s.sameBy resources eq t = true ↔
      UpToOrder (fun a b => eq b a = true) s.operations t.operations := by
  rw [sameBy, Bool.and_eq_true, List.all_eq_true, beq_iff_eq]
  constructor
  · rintro ⟨hsize, hall⟩
    have hfound : ∀ a ∈ s.operations, ∃ b, b ∈ t.operations ∧ eq b a = true := by
      intro a ha
      obtain ⟨b, hb, hab, -⟩ := exists_of_holdsBy (hall a ha)
      exact ⟨b, hb, hab⟩
    obtain ⟨ordered, hpairs⟩ := exists_forall₂_iff.2 hfound
    have hresources : s.operations.map resources = ordered.map resources := by
      rw [← List.forall₂_eq_eq_eq, List.forall₂_map_left_iff, List.forall₂_map_right_iff]
      exact hpairs.imp fun a b hab => (heq b a hab.2).symm
    have hnd : ordered.Nodup := by
      refine nodup_of_nodup_flatMap (f := resources) ?_ fun b hb => ?_
      · rw [List.flatMap_def, ← hresources, ← List.flatMap_def]
        exact hs.usesOnce
      · obtain ⟨a, ha, hab⟩ := List.mem_map.1 (hresources ▸ List.mem_map_of_mem hb)
        exact hab ▸ hacts a ha
    have hsub : ordered ⊆ t.operations := by
      intro b hb
      obtain ⟨a, hmem, -⟩ := exists_forall₂_iff.1 ⟨s.operations, hpairs.flip⟩ b hb
      exact hmem
    have hlen : t.operations.length ≤ ordered.length := by
      rw [← hpairs.length_eq]
      exact Nat.le_of_eq hsize.symm
    exact ⟨ordered, hpairs.imp fun a b hab => hab.2, (hnd.subperm hsub).perm_of_length_le hlen⟩
  · rintro ⟨ordered, hpairs, hperm⟩
    refine ⟨hpairs.length_eq.trans hperm.length_eq, fun a ha => ?_⟩
    have hmem : List.Forall₂ (fun a b => b ∈ t.operations ∧ eq b a = true) s.operations ordered :=
      forall₂_imp_mem hpairs fun a _ b hb hab => ⟨hperm.mem_iff.1 hb, hab⟩
    rw [ht.holdsBy_eq_any heq, List.any_eq_true]
    exact exists_forall₂_iff.1 ⟨ordered, hmem⟩ a ha

end Sound

end Slot

end Timetable
