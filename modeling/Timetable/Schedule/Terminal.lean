import Timetable.Schedule.Selection

/-!
# Terminal operations

An operation is terminal in its schedule when no later slot touches its resources. The questions
`allTerminal` and `anyTerminal` ask this of the operations that satisfy a test, those in nested
schedules included. The schedule in which an operation with a body stands is asked about the matches
that stand directly in the body, and about none that stand deeper.
-/

namespace Timetable

variable {ω : Type} [Operation ω]

/-- Whether no slot after the one of the index touches the resources of the operation. -/
def isTerminal (slots : List (Slot ω)) (op : ω) (index : Nat) : Bool :=
  (nextUse? slots (resources op) (index + 1)).isNone

/-- The operations without a schedule of their own that satisfy the test. -/
def flatMatching (slots : List (Slot ω)) (test : ω → Bool) : List (Nat × ω) :=
  (matching slots test).filter fun e => (body? e.2).isNone

/-- A bound on how deep the slots nest. -/
def nestingBound [RankedNesting ω] (slots : List (Slot ω)) : Nat :=
  (Schedule.indexedOperations slots).foldr (fun e n => max (RankedNesting.depth e.2 + 1) n) 0

/-- Every operation nests less deep than the bound of its slots. -/
theorem depth_lt_nestingBound [RankedNesting ω] {slots : List (Slot ω)} {e : Nat × ω}
    (h : e ∈ Schedule.indexedOperations slots) :
    RankedNesting.depth e.2 < nestingBound slots := by
  rw [nestingBound]
  generalize Schedule.indexedOperations slots = entries at h
  induction entries with
  | nil => cases h
  | cons a l ih =>
    rw [List.foldr_cons]
    rcases List.mem_cons.1 h with rfl | h
    · omega
    · have := ih h
      omega

/-- What lies inside an operation of some slots has a smaller bound than those slots. -/
theorem nestingBound_lt [RankedNesting ω] {slots inner : List (Slot ω)} {e : Nat × ω}
    (h : e ∈ Schedule.indexedOperations slots) (hb : body? e.2 = some inner) :
    nestingBound inner < nestingBound slots := by
  refine Nat.lt_of_le_of_lt ?_ (depth_lt_nestingBound h)
  have hall : ∀ x ∈ Schedule.indexedOperations inner,
      RankedNesting.depth x.2 < RankedNesting.depth e.2 := by
    intro x hx
    obtain ⟨p, hp, hm⟩ := List.mem_flatMap.1 hx
    obtain ⟨op, hop, rfl⟩ := List.mem_map.1 hm
    exact RankedNesting.depth_lt hb (List.fst_mem_of_mem_zipIdx hp) hop
  rw [nestingBound]
  generalize Schedule.indexedOperations inner = l at hall
  induction l with
  | nil => exact Nat.zero_le _
  | cons a l ih =>
    rw [List.foldr_cons]
    have ha := hall a List.mem_cons_self
    have := ih fun x hx => hall x (List.mem_cons_of_mem _ hx)
    omega

/-- Whether every matching operation, at any depth, is terminal in its schedule and in the next one
around it. -/
def allTerminal [RankedNesting ω] (test : ω → Bool) (slots : List (Slot ω)) : Bool :=
  (flatMatching slots test).all (fun e => isTerminal slots e.2 e.1) &&
    (Schedule.indexedOperations slots).attach.all fun ⟨e, _he⟩ =>
      match _hb : body? e.2 with
      | none => true
      | some inner =>
        allTerminal test inner &&
          (slots.length ≤ e.1 + 1 ||
            (matching inner test).all fun i => isTerminal slots i.2 e.1)
termination_by nestingBound slots
decreasing_by exact nestingBound_lt _he _hb

/-- Whether some operation that matches directly is terminal, or some nested schedule has a terminal
match and the slots around it leave it, or another match of it, untouched. -/
def anyTerminal [RankedNesting ω] (test : ω → Bool) (slots : List (Slot ω)) : Bool :=
  (flatMatching slots test).any (fun e => isTerminal slots e.2 e.1) ||
    (Schedule.indexedOperations slots).attach.any fun ⟨e, _he⟩ =>
      match _hb : body? e.2 with
      | none => false
      | some inner =>
        anyTerminal test inner &&
          (slots.length == e.1 + 1 ||
            (matching inner test).any fun i => isTerminal slots i.2 e.1)
termination_by nestingBound slots
decreasing_by exact nestingBound_lt _he _hb

end Timetable
