import Timetable.Merge.Zip
import Timetable.Proofs.Schedule.Layout

/-!
# Schedules on top of each other

In each slot of a zipped schedule some slots of the schedules meet. Where no resource is named twice
by those that meet, they are united one after the other, and the slot of the result holds what they
hold. Schedules of one length meet index by index, by whichever end they are lined up.

* `linedUp`: the slots that meet in one slot of the result.
* `unite_eq_ok`: uniting them.
* `zip_eq_ok`: the result where nothing collides.
* `longest_of_lengths`, `flatMap_linedUp`: schedules of one length.
-/

namespace Timetable

variable {ω : Type}

/-- The slots that meet in the slot `k` of the result, in the order of the schedules. -/
def linedUp (schedules : List (List (Slot ω))) (align : Alignment) (k : Nat) : List (Slot ω) :=
  schedules.filterMap (zipSource? align (longest schedules) k)

theorem mem_of_zipSource? {align : Alignment} {n k : Nat} {slots : List (Slot ω)} {slot : Slot ω}
    (h : zipSource? align n k slots = some slot) : slot ∈ slots := by
  unfold zipSource? at h
  split at h
  · exact List.mem_of_getElem? h
  all_goals
    split at h
    · exact List.mem_of_getElem? h
    · cases h

theorem exists_of_mem_linedUp {schedules : List (List (Slot ω))} {align : Alignment} {k : Nat}
    {slot : Slot ω} (h : slot ∈ linedUp schedules align k) : ∃ slots ∈ schedules, slot ∈ slots := by
  obtain ⟨slots, hslots, hsource⟩ := List.mem_filterMap.1 h
  exact ⟨slots, hslots, mem_of_zipSource? hsource⟩

/-! ### Schedules of one length -/

theorem longest_le_iff {schedules : List (List (Slot ω))} {b : Nat} :
    longest schedules ≤ b ↔ ∀ slots ∈ schedules, slots.length ≤ b := by
  rw [longest, Ordered.foldl_max_le_iff]
  exact and_iff_right (Nat.zero_le b)

theorem longest_of_lengths {schedules : List (List (Slot ω))} {n : Nat} (hne : schedules ≠ [])
    (h : ∀ slots ∈ schedules, slots.length = n) : longest schedules = n := by
  apply Nat.le_antisymm
  · exact longest_le_iff.2 fun slots hslots => Nat.le_of_eq (h slots hslots)
  · obtain ⟨slots, hslots⟩ := List.exists_mem_of_ne_nil _ hne
    rw [← h slots hslots]
    exact longest_le_iff.1 (Nat.le_refl _) slots hslots

/-- The slots of a schedule of full length are where they were. -/
theorem zipSource?_length (align : Alignment) (k : Nat) (slots : List (Slot ω)) :
    zipSource? align slots.length k slots = slots[k]? := by
  have hsub : slots.length + k - slots.length = k := Nat.add_sub_cancel_left _ _
  cases align with
  | left => rfl
  | right => rw [zipSource?, if_pos (Nat.le_add_right _ _), hsub]
  | first => rw [zipSource?, if_pos (Nat.le_add_right _ _), hsub]

/-- Schedules of one length meet index by index. -/
theorem flatMap_linedUp {schedules : List (List (Slot ω))} {n : Nat} (hne : schedules ≠ [])
    (h : ∀ slots ∈ schedules, slots.length = n) (align : Alignment) (k : Nat) :
    (linedUp schedules align k).flatMap Slot.operations
      = schedules.flatMap fun slots => operationsAt slots k := by
  rw [linedUp, longest_of_lengths hne h, List.filterMap_eq_flatMap_toList, List.flatMap_assoc]
  refine List.flatMap_congr fun slots hslots => ?_
  rw [← h slots hslots, zipSource?_length, operationsAt]
  cases slots[k]? <;> simp

variable [Operation ω]

/-! ### Uniting slots -/

/-- Sound slots are united when no resource is then named twice. -/
theorem unite_eq_ok (k : Nat) {slots : List (Slot ω)} (hslots : ∀ slot ∈ slots, slot.Sound) :
    ∀ {merged : Slot ω}, merged.Sound →
      ((merged.operations ++ slots.flatMap Slot.operations).flatMap resources).Nodup →
      ∃ united, unite k merged slots = .ok united ∧ united.Sound ∧
        united.operations = merged.operations ++ slots.flatMap Slot.operations := by
  induction slots with
  | nil =>
    intro merged hmerged _
    exact ⟨merged, rfl, hmerged, (List.append_nil _).symm⟩
  | cons slot slots ih =>
    intro merged hmerged hnd
    obtain ⟨hslot, hslots⟩ := List.forall_mem_cons.1 hslots
    rw [List.flatMap_cons, ← List.append_assoc] at hnd
    have hfree : ∀ r ∈ slot.operations.flatMap resources,
        r ∉ merged.operations.flatMap resources := by
      rw [List.flatMap_append, List.flatMap_append] at hnd
      have hpair := List.disjoint_of_nodup_append (List.nodup_append.1 hnd).1
      exact fun r hr hold => hpair hold hr
    obtain ⟨next, hnext, hsound, hops⟩ := hmerged.disjointUnion_eq_ok hslot hfree
    rw [← hops] at hnd
    obtain ⟨united, hunited, hsound', hops'⟩ := ih hslots hsound hnd
    refine ⟨united, ?_, hsound', ?_⟩
    · rw [unite, hnext]
      exact hunited
    · rw [hops', hops, List.flatMap_cons, List.append_assoc]

theorem zipFrom_eq_ok {schedules : List (List (Slot ω))} {align : Alignment}
    (hsound : ∀ slots ∈ schedules, ∀ slot ∈ slots, slot.Sound) {count : Nat} :
    ∀ {k : Nat}, (∀ j < count,
        (((linedUp schedules align (k + j)).flatMap Slot.operations).flatMap resources).Nodup) →
      ∃ merged, zipFrom schedules align k count = .ok merged ∧ merged.length = count ∧
        (∀ slot ∈ merged, slot.Sound) ∧
        ∀ j < count,
          operationsAt merged j = (linedUp schedules align (k + j)).flatMap Slot.operations := by
  induction count with
  | zero =>
    intro k _
    refine ⟨[], rfl, rfl, ?_, ?_⟩
    · exact fun slot hslot => nomatch hslot
    · exact fun j hj => absurd hj (Nat.not_lt_zero j)
  | succ count ih =>
    intro k hnd
    have hhere : ∀ slot ∈ linedUp schedules align k, slot.Sound := by
      intro slot hslot
      obtain ⟨slots, hslots, hmem⟩ := exists_of_mem_linedUp hslot
      exact hsound slots hslots slot hmem
    obtain ⟨united, hunited, husound, huops⟩ :=
      unite_eq_ok k hhere Slot.sound_empty (hnd 0 (Nat.succ_pos count))
    have hshift : ∀ j, k + 1 + j = k + (j + 1) := fun j => by omega
    obtain ⟨later, hlater, hlength, hlsound, hlops⟩ := ih (k := k + 1) fun j hj => by
      rw [hshift]
      exact hnd (j + 1) (Nat.succ_lt_succ hj)
    refine ⟨united :: later, ?_, by rw [List.length_cons, hlength], ?_, ?_⟩
    · rw [zipFrom, ← linedUp, hunited, hlater]
      rfl
    · exact List.forall_mem_cons.2 ⟨husound, hlsound⟩
    · intro j hj
      cases j with
      | zero => exact huops
      | succ j =>
        rw [← hshift, ← hlops j (Nat.lt_of_succ_lt_succ hj)]
        rfl

/-- Sound schedules can be zipped when no resource is named twice by slots that meet. -/
theorem zip_eq_ok {schedules : List (List (Slot ω))} {align : Alignment}
    (hsound : ∀ slots ∈ schedules, ∀ slot ∈ slots, slot.Sound)
    (hnd : ∀ k < longest schedules,
      (((linedUp schedules align k).flatMap Slot.operations).flatMap resources).Nodup) :
    ∃ merged, zip schedules align = .ok merged ∧ merged.length = longest schedules ∧
      (∀ slot ∈ merged, slot.Sound) ∧
      ∀ k < longest schedules,
        operationsAt merged k = (linedUp schedules align k).flatMap Slot.operations := by
  have hnd' : ∀ j < longest schedules,
      (((linedUp schedules align (0 + j)).flatMap Slot.operations).flatMap resources).Nodup := by
    intro j hj
    rw [Nat.zero_add]
    exact hnd j hj
  obtain ⟨merged, hmerged, hlength, hmsound, hops⟩ := zipFrom_eq_ok hsound hnd'
  refine ⟨merged, hmerged, hlength, hmsound, fun k hk => ?_⟩
  rw [hops k hk, Nat.zero_add]

end Timetable
