import Timetable.Proofs.Schedule.RangeFill

/-!
# Ranges that overflow

A range is filled by first fit. Once an operation finds no slot in what is left of the range, it and
all that follow it are left over, whether the others would find a slot or not, and are inserted at
the end of the range as early as they can go. The order on resources is kept from the one part to the
other. But the range is no bound for what is left over: on its way back an operation stops at
something that it conflicts with, and where nothing in the range holds it back it goes past the
range, into the slots before it.

* `FilledRange`: what has gone into the range, what has been left over, and how they stand.
* `insertIntoRange_firstFit`: the request succeeds, fills the range by first fit and keeps the order.
* `EarliestRun.not_conflict`: what an operation has passed on its way back.
* `RangeRun.start_le_of_meetsConflict`: what keeps an operation from going past the range.
* `insertIntoRange_before`: what becomes of the slots before the range.
* `insertIntoRange_past_range`: an operation that ends before its range.
-/

namespace Timetable

variable {ω : Type} [Operation ω]

/-- The schedule `s'` is the schedule `s` after a range has been filled: the operations of `filled`
have gone into the range, those of `spilled` have been left over and have gone in at its end. -/
structure FilledRange (s : Schedule ω) (start stop : Nat) (filled spilled : List (Nat × ω))
    (moved : Nat → Nat) (s' : Schedule ω) : Prop where
  layout : Layout s.slots moved (filled ++ spilled) s'.slots
  /-- Up to the end of the range the old slots stay in their places. -/
  fixed : ∀ i < stop, moved i = i
  within : ∀ e ∈ filled, start ≤ e.1 ∧ e.1 < stop
  firstFit : PlacedByFirstFit s start stop filled
  /-- The first operation that has been left over finds no slot. -/
  findsNoSlot : ∀ e ∈ spilled.head?, FindsNoSlot s start stop filled e.2
  /-- Of two operations on one resource the second one is in a later slot, also when the first one
  has gone into the range and the second one has been left over. -/
  ordered : (filled ++ spilled).Pairwise fun a b => SharesResource a.2 b.2 → a.1 < b.1

theorem RangeRun.filledRange {s mid s' : Schedule ω} {start stop next : Nat}
    {filled spilled : List (Nat × ω)} {moved : Nat → Nat}
    (h : RangeRun s mid s' start stop filled spilled moved next) :
    FilledRange s start stop filled spilled moved s' where
  layout := h.layout
  fixed := h.overflow.fixed
  within e he := ⟨(h.filling.within e he).1, (h.filling.within e he).2.2⟩
  firstFit := h.filling.firstFit
  findsNoSlot := h.findsNoSlot
  ordered := h.ordered

/-- **A range is filled by first fit and in order.** Fit operations always go in. Of two on one
resource the second one ends in a later slot, whether they go into the range or are left over. Each
operation that goes into the range is in the first slot that takes it from the slot of the operation
before it on; the first one that finds no slot is left over, and so are all behind it. When none is
left over, the answer is the end of the range, and nothing has changed beside the range. -/
theorem insertIntoRange_firstFit {s : Schedule ω} (hs : s.Sound) {bundle : Bundle ω}
    {start stop : Nat} (hrange : start ≤ stop ∧ stop ≤ s.length)
    (hfit : ∀ op ∈ bundle.operations, (resources op).Nodup ∧ nestsInItself op = false) :
    ∃ filled spilled moved next, (s.insertIntoRange bundle start stop).answer = .ok next ∧
      (filled ++ spilled).map Prod.snd = bundle.operations ∧
      FilledRange s start stop filled spilled moved (s.insertIntoRange bundle start stop).left ∧
      (spilled = [] → next = stop ∧
        (s.insertIntoRange bundle start stop).left.length = s.length ∧
        ∀ i, i < start ∨ stop ≤ i →
          (s.insertIntoRange bundle start stop).left.slots[i]? = s.slots[i]?) := by
  have hcheck : Schedule.checkOperations bundle.operations = .ok () := by
    rw [Schedule.checkOperations_eq_ok_iff]
    exact fun op hop => Schedule.checkOperation_eq_ok_iff.2 (hfit op hop)
  obtain ⟨mid, filled, spilled, moved, next, hans, hops, hrun⟩ :=
    Schedule.exists_rangeRun hs hrange hcheck
  refine ⟨filled, spilled, moved, next, hans, hops, hrun.filledRange, fun hnone => ?_⟩
  obtain ⟨hleft, hnext⟩ := hrun.nothing_left hnone
  rw [hleft]
  exact ⟨hnext, hrun.filling.length_eq, hrun.filling.beside⟩

/-- Under a rule that lets two operations into a slot, the second operation shares the slot of the
first one, the third one goes on to the end of the range, and the fourth one is left over. -/
theorem insertIntoRange_firstFit_left_over :
    let op (name : String) (lines : List Resource) : Instruction := { name, resources := lines }
    let a := op "a" [.line 0]
    let b := op "b" [.line 1]
    let bundle : Bundle Instruction := .ofList
      [op "x" [.line 2], op "y" [.line 3], op "z" [.line 1, .line 2], op "w" [.line 2]]
    let two : Acceptance Instruction := ⟨0, fun _ slot => slot.operations.length < 2⟩
    let s := (Schedule.ofSlots ([[a, b], [], [a], [b]].map Slot.ofApart)).withAcceptance two
    (s.Sound ∧ (0 ≤ 3 ∧ 3 ≤ s.length) ∧
      ∀ op ∈ bundle.operations, (resources op).Nodup ∧ nestsInItself op = false) ∧
    ∃ filled spilled moved next, (s.insertIntoRange bundle 0 3).answer = .ok next ∧
      (filled ++ spilled).map Prod.snd = bundle.operations ∧
      FilledRange s 0 3 filled spilled moved (s.insertIntoRange bundle 0 3).left ∧
      (spilled = [] → next = 3 ∧ (s.insertIntoRange bundle 0 3).left.length = s.length ∧
        ∀ i, i < 0 ∨ 3 ≤ i → (s.insertIntoRange bundle 0 3).left.slots[i]? = s.slots[i]?) := by
  intro op a b bundle two s
  have hs : s.Sound := Slot.sound_map_ofApart (by decide)
  have hrange : 0 ≤ 3 ∧ 3 ≤ s.length := by decide
  have hfit : ∀ op ∈ bundle.operations, (resources op).Nodup ∧ nestsInItself op = false := by
    rw [Bundle.operations_ofList]
    decide
  exact ⟨⟨hs, hrange, hfit⟩, insertIntoRange_firstFit hs hrange hfit⟩

/-! ### What is left over -/

/-- An operation that has moved back from the cursor has passed nothing that it conflicts with. -/
theorem EarliestRun.not_conflict {s s' : Schedule ω} {k k' : Nat} {moved : Nat → Nat}
    {earlier later : List (Nat × ω)} {e : Nat × ω}
    (h : EarliestRun s k moved (earlier ++ e :: later) s' k') {i : Nat} (hei : e.1 < i) (hi : i < k) :
    ∀ a ∈ heldAfter s earlier i, ¬Conflict a e.2 := by
  have hmem : e ∈ earlier ++ e :: later := by simp
  intro a ha hconflict
  rcases List.mem_append.1 ha with hold | hnew
  · rcases hconflict with hshare | hkey
    · have hlt := h.behind e hmem i hi a hold hshare
      omega
    · have hle := h.keys_behind e hmem i hi a hold hkey
      omega
  · have hd : (i, a) ∈ earlier := mem_landedIn.1 hnew
    rcases hconflict with hshare | hkey
    · have hlt := (List.pairwise_append.1 h.ordered).2.2 (i, a) hd e List.mem_cons_self hshare
      omega
    · have hle := (List.pairwise_append.1 h.keys_ordered).2.2 (i, a) hd e List.mem_cons_self hkey
      omega

/-- Something in the range, old or of the record, conflicts with the operation. -/
def MeetsConflict (s : Schedule ω) (start stop : Nat) (placed : List (Nat × ω)) (op : ω) : Prop :=
  ∃ i, start ≤ i ∧ i < stop ∧ ∃ a ∈ heldAfter s placed i, Conflict a op

namespace RangeRun

variable {s mid s' : Schedule ω} {start stop next : Nat} {filled spilled : List (Nat × ω)}
variable {moved : Nat → Nat}

/-- What is written into the range does not get before it. -/
theorem operationsAt_before (h : RangeRun s mid s' start stop filled spilled moved next) {i : Nat}
    (hi : i < start) : operationsAt s'.slots i = operationsAt s.slots i ++ landedIn spilled i := by
  have hmoved : moved i = i := h.overflow.fixed i (Nat.lt_of_lt_of_le hi h.range.1)
  have hcontent := h.layout.content_moved i
    (Nat.lt_of_lt_of_le hi (Nat.le_trans h.range.1 h.range.2))
  have hnone : landedIn filled i = [] := landedIn_eq_nil fun e he =>
    Nat.ne_of_gt (Nat.lt_of_lt_of_le hi (h.filling.within e he).1)
  rwa [hmoved, landedIn_append, hnone, List.nil_append] at hcontent

/-- What is left over has passed nothing that it conflicts with, neither old nor inserted. -/
theorem not_conflict (h : RangeRun s mid s' start stop filled spilled moved next)
    {earlier later : List (Nat × ω)} {e : Nat × ω} (hsplit : spilled = earlier ++ e :: later)
    {i : Nat} (hei : e.1 < i) (hi : i < stop) :
    ∀ a ∈ heldAfter s (filled ++ earlier) i, ¬Conflict a e.2 := by
  have hheld : heldAfter mid earlier i = heldAfter s (filled ++ earlier) i := by
    rw [heldAfter, h.filling.operationsAt_eq, heldAfter, heldAfter, landedIn_append,
      List.append_assoc]
  rw [← hheld]
  exact (hsplit ▸ h.overflow).not_conflict hei hi

/-- An operation that conflicts with something in the range does not get before it. -/
theorem start_le_of_meetsConflict (h : RangeRun s mid s' start stop filled spilled moved next)
    {e : Nat × ω} (he : e ∈ spilled) (hmeets : MeetsConflict s start stop filled e.2) :
    start ≤ e.1 := by
  by_contra hbefore
  obtain ⟨earlier, later, hsplit⟩ := List.append_of_mem he
  obtain ⟨i, hstart, hstop, a, ha, hconflict⟩ := hmeets
  have hheld : a ∈ heldAfter s (filled ++ earlier) i := by
    rw [heldAfter, landedIn_append, ← List.append_assoc]
    exact List.mem_append_left _ ha
  exact h.not_conflict hsplit (by omega) hstop a hheld hconflict

/-- Slots before the range that no operation has joined are as they were. -/
theorem getElem?_before (h : RangeRun s mid s' start stop filled spilled moved next)
    (hs : s.Sound) (hnone : ∀ e ∈ spilled, start ≤ e.1) {i : Nat} (hi : i < start) :
    s'.slots[i]? = s.slots[i]? := by
  have hold : i < s.slots.length := Nat.lt_of_lt_of_le hi (Nat.le_trans h.range.1 h.range.2)
  have hmoved : moved i = i := h.overflow.fixed i (Nat.lt_of_lt_of_le hi h.range.1)
  have hnew : i < s'.slots.length := by
    have hlt := h.layout.moved_lt i hold
    rwa [hmoved] at hlt
  have hjoined : landedIn spilled i = [] := landedIn_eq_nil fun e he =>
    Nat.ne_of_gt (Nat.lt_of_lt_of_le hi (hnone e he))
  have hops : operationsAt s'.slots i = operationsAt s.slots i := by
    rw [h.operationsAt_before hi, hjoined, List.append_nil]
  rw [List.getElem?_eq_getElem hnew, List.getElem?_eq_getElem hold,
    getElem_eq_of_operationsAt h.overflow.sound hs hnew hold hops]

end RangeRun

/-- **Only what is left over gets before the range.** The slots before the range keep what they hold,
and only operations that have been left over can join them. Such an operation has moved back from
the end of the range, and has passed nothing on its way that it conflicts with. Where each operation
that is left over conflicts with something in the range, or none is left over, all inserted
operations are in the range or behind it, and the slots before it are as they were. -/
theorem insertIntoRange_before {s : Schedule ω} (hs : s.Sound) {bundle : Bundle ω}
    {start stop next : Nat} (h : (s.insertIntoRange bundle start stop).answer = .ok next) :
    ∃ filled spilled moved, (filled ++ spilled).map Prod.snd = bundle.operations ∧
      FilledRange s start stop filled spilled moved (s.insertIntoRange bundle start stop).left ∧
      (∀ i < start, operationsAt (s.insertIntoRange bundle start stop).left.slots i
        = operationsAt s.slots i ++ landedIn spilled i) ∧
      (∀ earlier e later, spilled = earlier ++ e :: later → ∀ i, e.1 < i → i < stop →
        ∀ a ∈ heldAfter s (filled ++ earlier) i, ¬Conflict a e.2) ∧
      ((∀ e ∈ spilled, MeetsConflict s start stop filled e.2) →
        (∀ e ∈ filled ++ spilled, start ≤ e.1) ∧
        ∀ i < start, (s.insertIntoRange bundle start stop).left.slots[i]? = s.slots[i]?) := by
  obtain ⟨mid, filled, spilled, moved, hops, hrun⟩ := Schedule.rangeRun_of_insertIntoRange hs h
  refine ⟨filled, spilled, moved, hops, hrun.filledRange, fun i hi => hrun.operationsAt_before hi,
    fun earlier e later hsplit i hei hi => hrun.not_conflict hsplit hei hi, fun hmeets => ?_⟩
  have hbehind : ∀ e ∈ spilled, start ≤ e.1 := fun e he =>
    hrun.start_le_of_meetsConflict he (hmeets e he)
  refine ⟨fun e he => ?_, fun i hi => hrun.getElem?_before hs hbehind hi⟩
  rcases List.mem_append.1 he with he | he
  · exact (hrun.filling.within e he).1
  · exact hbehind e he

/-- The operation `y` that is left over conflicts with the operation in the range: it goes behind it,
and the slot before the range is as it was. -/
theorem insertIntoRange_before_held_back :
    let op (name : String) (lines : List Resource) : Instruction := { name, resources := lines }
    let bundle : Bundle Instruction := .ofList [op "x" [.line 0], op "y" [.line 1, .line 2]]
    let s := Schedule.ofSlots ([[], [op "a" [.line 0, .line 1]]].map Slot.ofApart)
    (s.Sound ∧ (s.insertIntoRange bundle 1 2).answer = .ok 3) ∧
    ∃ filled spilled moved, (filled ++ spilled).map Prod.snd = bundle.operations ∧
      FilledRange s 1 2 filled spilled moved (s.insertIntoRange bundle 1 2).left ∧
      (∀ i < 1, operationsAt (s.insertIntoRange bundle 1 2).left.slots i
        = operationsAt s.slots i ++ landedIn spilled i) ∧
      (∀ earlier e later, spilled = earlier ++ e :: later → ∀ i, e.1 < i → i < 2 →
        ∀ a ∈ heldAfter s (filled ++ earlier) i, ¬Conflict a e.2) ∧
      ((∀ e ∈ spilled, MeetsConflict s 1 2 filled e.2) →
        (∀ e ∈ filled ++ spilled, 1 ≤ e.1) ∧
        ∀ i < 1, (s.insertIntoRange bundle 1 2).left.slots[i]? = s.slots[i]?) := by
  intro op bundle s
  have hs : s.Sound := Slot.sound_map_ofApart (by decide)
  have hans : (s.insertIntoRange bundle 1 2).answer = .ok 3 := by decide +kernel
  exact ⟨⟨hs, hans⟩, insertIntoRange_before hs hans⟩

/-- The operation `x` finds no slot in the range, and so `y` is left over with it. Nothing in the
range acts on the resource of `y`, and it goes past the range into the slot before it. -/
theorem insertIntoRange_past_range :
    let op (name : String) (lines : List Resource) : Instruction := { name, resources := lines }
    let bundle : Bundle Instruction := .ofList [op "x" [.line 0], op "y" [.line 1]]
    let s := Schedule.ofSlots ([[], [op "a" [.line 0]]].map Slot.ofApart)
    s.Sound ∧ 1 ≤ 2 ∧ 2 ≤ s.length ∧ (s.insertIntoRange bundle 1 2).answer = .ok 3 ∧
      (operationsAt (s.insertIntoRange bundle 1 2).left.slots 0).map Instruction.name = ["y"] ∧
      ¬∀ i < 1, (s.insertIntoRange bundle 1 2).left.slots[i]? = s.slots[i]? := by
  intro op bundle s
  have hjoined :
      (operationsAt (s.insertIntoRange bundle 1 2).left.slots 0).map Instruction.name = ["y"] := by
    decide +kernel
  refine ⟨Slot.sound_map_ofApart (by decide), by decide, by decide, by decide +kernel, hjoined,
    fun hsame => ?_⟩
  rw [operationsAt, hsame 0 (by decide)] at hjoined
  cases hjoined

end Timetable
