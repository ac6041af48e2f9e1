import Timetable.Proofs.Schedule.Insertion
import Timetable.Instruction

/-!
# Insertion keeps operations on one resource in order

Whatever the strategy and the acceptance rule, the operations of a bundle come to stand in the order
of the bundle wherever they share a resource, and behind the operations on their resources that
stood before the place of insertion. Unless they go in as early as they can, they also come to stand
before everything that stood at that place or later.

* `InsertedInOrder`: these orders, together with the layout of the new schedule.
* `insert_inOrder`: every insertion that succeeds keeps them.
-/

namespace Timetable

variable {ω : Type} [Operation ω]

/-- The schedule `s'` is the schedule `s` with a bundle inserted before the slot of an index, such
that operations on one resource are in order. -/
structure InsertedInOrder (s : Schedule ω) (index : Nat) (bundle : Bundle ω) (strategy : Strategy)
    (moved : Nat → Nat) (landed : List (Nat × ω)) (s' : Schedule ω) : Prop where
  layout : Layout s.slots moved landed s'.slots
  /-- What has landed are the operations of the bundle, in their order. -/
  inserted : landed.map Prod.snd = bundle.operations
  /-- Of two inserted operations on one resource the first one is in the earlier slot. -/
  ordered : landed.Pairwise fun a b => SharesResource a.2 b.2 → a.1 < b.1
  /-- An inserted operation is behind those on its resources that were before the index. -/
  behind : ∀ e ∈ landed, ∀ i < min index s.length, ∀ op ∈ operationsAt s.slots i,
    SharesResource op e.2 → moved i < e.1
  /-- An inserted operation is before every slot that was at the index or later. -/
  ahead : strategy ≠ .earliest →
    ∀ e ∈ landed, ∀ i < s.length, min index s.length ≤ i → e.1 < moved i

/-- **Insertion keeps the order on every resource.** -/
theorem insert_inOrder {s : Schedule ω} (hs : s.Sound) {bundle : Bundle ω} (hb : bundle.Sound)
    (index : Nat) (strategy : Strategy) {next : Nat}
    (h : (s.insert index bundle strategy).answer = .ok next) :
    ∃ moved landed, InsertedInOrder s index bundle strategy moved landed
      (s.insert index bundle strategy).left := by
  rw [Schedule.insert] at h ⊢
  split at h
  · cases h
  · rename_i hcheck
    have hk : min index s.length ≤ s.length := Nat.min_le_right _ _
    obtain ⟨moved, landed, k', -, hops, hins⟩ :=
      Schedule.exists_insertion hs hk strategy hb (Schedule.checkItems_eq_ok_iff.1 hcheck)
    refine ⟨moved, landed, hins.layout, hops, hins.ordered, ?_, ?_⟩
    · intro e he i hi op hop hshare
      rw [hins.fixed i hi]
      exact hins.behind e he i hi op hop hshare
    · intro hne e he i _ hi
      exact Nat.lt_of_lt_of_le (hins.landed_lt e he) (hins.ahead hne i hi)

/-- A slot of one instruction on the first place of a line, before which two instructions and the
slot itself once more are inserted. -/
theorem insert_inOrder_three :
    let a : Instruction := { name := "a", resources := [.line 0] }
    let b : Instruction := { name := "b", resources := [.line 0, .line 1] }
    let slot : Slot Instruction := ⟨[a], SortedMap.insert ∅ (.line 0) 0⟩
    let bundle : Bundle Instruction := .sequence [.operation b, .slot slot, .operation b]
    let s := Schedule.ofSlots [slot]
    (s.Sound ∧ bundle.Sound ∧ (s.insert 0 bundle .inline).answer = .ok 3) ∧
      ∃ moved landed, InsertedInOrder s 0 bundle .inline moved landed
        (s.insert 0 bundle .inline).left := by
  intro a b slot bundle s
  have hslot : slot.Sound := Slot.Sound.ofOperations (rfl : Slot.ofOperations [a] = .ok slot)
  have hs : s.Sound := by
    show ∀ t ∈ [slot], t.Sound
    simp [hslot]
  have hb : bundle.Sound := by
    show ∀ item ∈ [Item.operation b, Item.slot slot, Item.operation b], item.Sound
    simp [Item.Sound, hslot]
  have hok : (s.insert 0 bundle .inline).answer = .ok 3 := rfl
  exact ⟨⟨hs, hb, hok⟩, insert_inOrder hs hb 0 .inline hok⟩

end Timetable
