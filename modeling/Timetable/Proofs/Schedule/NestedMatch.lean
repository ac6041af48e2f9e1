import Timetable.Instruction
import Timetable.Proofs.Reach.Stopping
import Timetable.Proofs.Schedule.Layout
import Timetable.Schedule.Terminal

/-!
# Terminal matches in nested schedules

An operation in the body of another one is surrounded by several schedules. It is terminal when no
slot after it touches its resources in any of them. The two questions about terminal matches look
less far than that. Whether all matches are terminal is asked of the two innermost schedules of each
match. Whether some match is terminal is asked from schedule to schedule, and the match that is
terminal in one of them need not be the one that is terminal in the next.

* `Level`, `Level.Terminal`: a schedule around an operation, and what it is to be terminal there.
* `Occurs`: an operation with all the schedules around it.
* `nested_induction`: what holds of a schedule when it holds of all bodies in it, holds of all.
* `allTerminal_iff_innermost`: what it means that all matches are terminal.
* `Relays`, `anyTerminal_iff_relayed`: what it means that some match is terminal.
-/

namespace Timetable

variable {ω : Type} [Operation ω]

/-- A schedule around an operation: its slots, and the index of the slot in which the operation
stands, or the one around it. -/
structure Level (ω : Type) where
  slots : List (Slot ω)
  index : Nat

/-- No later slot of the schedule touches the resources of the operation. -/
def Level.Terminal (level : Level ω) (op : ω) : Prop :=
  ∀ j slot, level.index < j → level.slots[j]? = some slot → slot.touches (resources op) = false

/-- The operation stands in the slots, at some depth. The levels are the schedules around it, from
the one that holds it outwards. -/
inductive Occurs (op : ω) : List (Slot ω) → List (Level ω) → Prop
  | here {slots : List (Slot ω)} {i : Nat} : op ∈ operationsAt slots i → Occurs op slots [⟨slots, i⟩]
  | inside {slots inner : List (Slot ω)} {i : Nat} {outer : ω} {levels : List (Level ω)} :
      outer ∈ operationsAt slots i → body? outer = some inner → Occurs op inner levels →
        Occurs op slots (levels ++ [⟨slots, i⟩])

namespace Occurs

variable {op : ω} {slots : List (Slot ω)} {levels : List (Level ω)}

/-- The outermost level is the schedule itself. -/
theorem exists_getLast? (h : Occurs op slots levels) : ∃ i, levels.getLast? = some ⟨slots, i⟩ := by
  cases h with
  | here _ => exact ⟨_, rfl⟩
  | inside _ _ _ => exact ⟨_, List.getLast?_concat⟩

theorem ne_nil (h : Occurs op slots levels) : levels ≠ [] := by
  rintro rfl
  obtain ⟨i, hi⟩ := h.exists_getLast?
  cases hi

/-- Either the operation stands in a slot of the schedule, or there are two levels around it. -/
theorem direct_or_two_le (h : Occurs op slots levels) :
    (∃ i, levels = [⟨slots, i⟩] ∧ op ∈ operationsAt slots i) ∨ 2 ≤ levels.length := by
  cases h with
  | here hop => exact .inl ⟨_, rfl, hop⟩
  | inside _ _ hinner =>
    have := List.length_pos_iff.2 hinner.ne_nil
    rw [List.length_append, List.length_singleton]
    exact .inr (by omega)

/-- An operation with at most two schedules around it stands in a slot of the schedule, or directly
in the body of an operation there. -/
theorem direct_or_in_body (h : Occurs op slots levels) (hshallow : levels.length ≤ 2) :
    (∃ i, levels = [⟨slots, i⟩] ∧ op ∈ operationsAt slots i) ∨
      ∃ i outer inner k, outer ∈ operationsAt slots i ∧ body? outer = some inner ∧
        op ∈ operationsAt inner k ∧ levels = [⟨inner, k⟩, ⟨slots, i⟩] := by
  cases h with
  | here hop => exact .inl ⟨_, rfl, hop⟩
  | inside houter hbody hinner =>
    rw [List.length_append, List.length_singleton] at hshallow
    rcases hinner.direct_or_two_le with ⟨k, rfl, hk⟩ | htwo
    · exact .inr ⟨_, _, _, k, houter, hbody, hk, rfl⟩
    · omega

end Occurs

/-! ### One schedule and the bodies in it -/

omit [Operation ω] in
theorem mem_matching_iff {slots : List (Slot ω)} {test : ω → Bool} {e : Nat × ω} :
    e ∈ matching slots test ↔ e.2 ∈ operationsAt slots e.1 ∧ test e.2 = true := by
  rw [matching, List.mem_filter, mem_indexedOperations_iff]

theorem mem_flatMatching_iff {slots : List (Slot ω)} {test : ω → Bool} {e : Nat × ω} :
    e ∈ flatMatching slots test ↔
      (e.2 ∈ operationsAt slots e.1 ∧ test e.2 = true) ∧ body? e.2 = none := by
  rw [flatMatching, List.mem_filter, mem_matching_iff, Option.isNone_iff_eq_none]

/-- What holds of a schedule whenever it holds of the bodies in it, holds of every schedule. -/
theorem nested_induction [RankedNesting ω] {P : List (Slot ω) → Prop}
    (step : ∀ slots, (∀ i outer inner, outer ∈ operationsAt slots i → body? outer = some inner →
      P inner) → P slots) (slots : List (Slot ω)) : P slots := by
  generalize hn : nestingBound slots = n
  induction n using Nat.strong_induction_on generalizing slots with
  | _ n ih =>
    refine step slots fun i outer inner houter hbody => ?_
    have hlt := nestingBound_lt (e := (i, outer)) (mem_indexedOperations_iff.2 houter) hbody
    exact ih _ (hn ▸ hlt) inner rfl

/-- No operation has more schedules around it than the slots nest. -/
theorem Occurs.length_le_nestingBound [RankedNesting ω] {op : ω} {slots : List (Slot ω)}
    {levels : List (Level ω)} (h : Occurs op slots levels) :
    levels.length ≤ nestingBound slots := by
  induction h with
  | @here slots i hop =>
    have := depth_lt_nestingBound (e := (i, op)) (mem_indexedOperations_iff.2 hop)
    rw [List.length_singleton]
    omega
  | @inside slots inner i outer levels houter hbody _ ih =>
    have := nestingBound_lt (e := (i, outer)) (mem_indexedOperations_iff.2 houter) hbody
    rw [List.length_append, List.length_singleton]
    omega

theorem isTerminal_iff {slots : List (Slot ω)} {op : ω} {i : Nat} :
    isTerminal slots op i = true ↔ Level.Terminal ⟨slots, i⟩ op := by
  rw [isTerminal, Option.isNone_iff_eq_none, nextUse?_eq_none_iff]
  rfl

/-- In the last slot every operation is terminal. -/
theorem Level.terminal_of_length_le {slots : List (Slot ω)} {i : Nat} (h : slots.length ≤ i + 1)
    (op : ω) : Level.Terminal ⟨slots, i⟩ op := by
  intro j slot hj hslot
  have hlt : j < slots.length := (List.getElem?_eq_some_iff.1 hslot).1
  have hj : i < j := hj
  omega

/-- What is asked of one schedule: its own matches, the bodies in it, and the matches that stand
directly in these bodies. -/
theorem allTerminal_iff_step [RankedNesting ω] {test : ω → Bool} {slots : List (Slot ω)} :
    allTerminal test slots = true ↔
      (∀ i op, op ∈ operationsAt slots i → test op = true → body? op = none →
        Level.Terminal ⟨slots, i⟩ op) ∧
      ∀ i outer inner, outer ∈ operationsAt slots i → body? outer = some inner →
        allTerminal test inner = true ∧
          ∀ k op, op ∈ operationsAt inner k → test op = true → Level.Terminal ⟨slots, i⟩ op := by
  rw [allTerminal, Bool.and_eq_true, List.all_eq_true, List.all_eq_true]
  refine and_congr ?_ ?_
  · simp only [mem_flatMatching_iff, isTerminal_iff, Prod.forall, and_imp]
  · constructor
    · intro h i outer inner houter hbody
      have hbodies := h ⟨(i, outer), mem_indexedOperations_iff.2 houter⟩ (List.mem_attach _ _)
      dsimp only at hbodies
      split at hbodies
      · rename_i hnone
        rw [hbody] at hnone
        cases hnone
      · rename_i inner' hinner
        obtain rfl : inner = inner' := Option.some.inj (hbody.symm.trans hinner)
        rw [Bool.and_eq_true, Bool.or_eq_true, decide_eq_true_eq, List.all_eq_true] at hbodies
        refine ⟨hbodies.1, fun k op hop hmatch => ?_⟩
        rcases hbodies.2 with hlast | hall
        · exact Level.terminal_of_length_le hlast op
        · exact isTerminal_iff.1 (hall (k, op) (mem_matching_iff.2 ⟨hop, hmatch⟩))
    · intro h e _
      obtain ⟨⟨i, outer⟩, he⟩ := e
      dsimp only
      split
      · rfl
      · rename_i inner hbody
        obtain ⟨hinner, hdirect⟩ := h i outer inner (mem_indexedOperations_iff.1 he) hbody
        rw [Bool.and_eq_true, Bool.or_eq_true, List.all_eq_true]
        refine ⟨hinner, .inr fun m hm => ?_⟩
        obtain ⟨hop, hmatch⟩ := mem_matching_iff.1 hm
        exact isTerminal_iff.2 (hdirect m.1 m.2 hop hmatch)

/-- What is asked of one schedule: its own matches, or a body in which some match is terminal, when
the body stands in the last slot or some match that stands directly in it is terminal here. -/
theorem anyTerminal_iff_step [RankedNesting ω] {test : ω → Bool} {slots : List (Slot ω)} :
    anyTerminal test slots = true ↔
      (∃ i op, op ∈ operationsAt slots i ∧ test op = true ∧ body? op = none ∧
        Level.Terminal ⟨slots, i⟩ op) ∨
      ∃ i outer inner, outer ∈ operationsAt slots i ∧ body? outer = some inner ∧
        anyTerminal test inner = true ∧
          (i + 1 = slots.length ∨
            ∃ k op, op ∈ operationsAt inner k ∧ test op = true ∧ Level.Terminal ⟨slots, i⟩ op) := by
  rw [anyTerminal, Bool.or_eq_true, List.any_eq_true, List.any_eq_true]
  refine or_congr ?_ ?_
  · simp only [mem_flatMatching_iff, isTerminal_iff, Prod.exists, and_assoc]
  · constructor
    · intro h
      obtain ⟨⟨⟨i, outer⟩, he⟩, -, hbodies⟩ := h
      dsimp only at hbodies
      split at hbodies
      · cases hbodies
      · rename_i inner hbody
        rw [Bool.and_eq_true, Bool.or_eq_true, beq_iff_eq, List.any_eq_true] at hbodies
        refine ⟨i, outer, inner, mem_indexedOperations_iff.1 he, hbody, hbodies.1, ?_⟩
        rcases hbodies.2 with hlast | hany
        · exact .inl hlast.symm
        · obtain ⟨m, hm, hterminal⟩ := hany
          obtain ⟨hop, hmatch⟩ := mem_matching_iff.1 hm
          exact .inr ⟨m.1, m.2, hop, hmatch, isTerminal_iff.1 hterminal⟩
    · intro h
      obtain ⟨i, outer, inner, houter, hbody, hinner, hhere⟩ := h
      refine ⟨⟨(i, outer), mem_indexedOperations_iff.2 houter⟩, List.mem_attach _ _, ?_⟩
      dsimp only
      split
      · rename_i hnone
        rw [hbody] at hnone
        cases hnone
      · rename_i inner' hinner'
        obtain rfl : inner = inner' := Option.some.inj (hbody.symm.trans hinner')
        rw [Bool.and_eq_true, Bool.or_eq_true, beq_iff_eq, List.any_eq_true]
        refine ⟨hinner, hhere.imp Eq.symm fun hdirect => ?_⟩
        obtain ⟨k, op, hop, hmatch, hterminal⟩ := hdirect
        exact ⟨(k, op), mem_matching_iff.2 ⟨hop, hmatch⟩, isTerminal_iff.2 hterminal⟩

/-! ### Matches without a body -/

/-- No operation that matches, at whatever depth, holds a schedule of its own. -/
def FlatMatches (test : ω → Bool) (slots : List (Slot ω)) : Prop :=
  ∀ op levels, Occurs op slots levels → test op = true → body? op = none

theorem FlatMatches.inner {test : ω → Bool} {slots inner : List (Slot ω)}
    (h : FlatMatches test slots) {i : Nat} {outer : ω} (houter : outer ∈ operationsAt slots i)
    (hbody : body? outer = some inner) : FlatMatches test inner :=
  fun op _ hop => h op _ (.inside houter hbody hop)

def slotOf (ops : List Instruction) : Slot Instruction := ⟨ops, Slot.indexBy resources ops⟩

theorem operationsAt_map_slotOf (lists : List (List Instruction)) (i : Nat) :
    operationsAt (lists.map slotOf) i = lists[i]?.getD [] := by
  rw [operationsAt, List.getElem?_map]
  cases lists[i]? <;> rfl

/-- The instruction around some instructions, one list for each slot. -/
def nesting (name : String) (body : List (List Instruction)) : Instruction :=
  .wrap name ⟨body.map slotOf, none⟩

def flatNamed (name : String) (op : Instruction) : Bool := op.body.isNone && op.name == name

theorem flatMatches_flatNamed (name : String) (slots : List (Slot Instruction)) :
    FlatMatches (flatNamed name) slots := by
  intro op _ _ h
  have hnone : op.body.isNone = true := (Bool.and_eq_true_iff.1 h).1
  show op.body.map Body.slots = none
  rw [Option.map_eq_none_iff, ← Option.isNone_iff_eq_none]
  exact hnone

/-! ### All schedules around a match -/

/-- The operation is terminal in all schedules around it. -/
def TerminalThroughout (op : ω) (levels : List (Level ω)) : Prop :=
  ∀ level ∈ levels, level.Terminal op

/-- One more level is among the two innermost ones only if the operation stands directly in the
schedule inside it. -/
theorem Occurs.terminalThroughout_take_two {op : ω} {inner : List (Slot ω)}
    {levels : List (Level ω)} (h : Occurs op inner levels) (outer : Level ω) :
    TerminalThroughout op ((levels ++ [outer]).take 2) ↔
      TerminalThroughout op (levels.take 2) ∧
        ∀ k, op ∈ operationsAt inner k → levels = [⟨inner, k⟩] → outer.Terminal op := by
  rcases h.direct_or_two_le with ⟨k, rfl, hk⟩ | htwo
  · have hboth : TerminalThroughout op [Level.mk inner k, outer] ↔
        TerminalThroughout op [Level.mk inner k] ∧ outer.Terminal op := by
      simp [TerminalThroughout]
    refine hboth.trans (and_congr_right fun _ => ⟨fun h _ _ _ => h, fun h => h k hk rfl⟩)
  · have hdeep : ∀ k, levels ≠ [⟨inner, k⟩] := by
      rintro k rfl
      rw [List.length_singleton] at htwo
      omega
    rw [List.take_append_of_le_length htwo]
    exact ⟨fun h => ⟨h, fun k _ hk => absurd hk (hdeep k)⟩, And.left⟩

theorem allTerminal_iff [RankedNesting ω] {test : ω → Bool} {slots : List (Slot ω)}
    (hflat : FlatMatches test slots) :
    allTerminal test slots = true ↔ ∀ op levels, Occurs op slots levels → test op = true →
      TerminalThroughout op (levels.take 2) := by
  induction slots using nested_induction with
  | step slots ih =>
  rw [allTerminal_iff_step]
  constructor
  · intro h op levels hop hmatch
    obtain ⟨hhere, hbodies⟩ := h
    cases hop with
    | here hop =>
      intro level hlevel
      obtain rfl := List.mem_singleton.1 (List.mem_of_mem_take hlevel)
      exact hhere _ op hop hmatch (hflat op _ (.here hop) hmatch)
    | inside houter hbody hinner =>
      obtain ⟨hall, hdirect⟩ := hbodies _ _ _ houter hbody
      have hlevels := (ih _ _ _ houter hbody (hflat.inner houter hbody)).1 hall op _ hinner hmatch
      exact (hinner.terminalThroughout_take_two _).2
        ⟨hlevels, fun k hk _ => hdirect k op hk hmatch⟩
  · intro h
    refine ⟨fun i op hop hmatch _ => ?_, fun i outer inner houter hbody => ⟨?_, ?_⟩⟩
    · exact h op _ (.here hop) hmatch _ List.mem_cons_self
    · refine (ih i outer inner houter hbody (hflat.inner houter hbody)).2 ?_
      intro op levels hop hmatch
      have hlevels := h op _ (.inside houter hbody hop) hmatch
      exact ((hop.terminalThroughout_take_two _).1 hlevels).1
    · intro k op hk hmatch
      have hlevels := h op _ (.inside houter hbody (.here hk)) hmatch
      exact (((Occurs.here hk).terminalThroughout_take_two _).1 hlevels).2 k hk rfl

/-- **Whether all matches are terminal is asked of two levels.** The answer is that every match is
terminal in the schedule that holds it and in the next one outwards. So it is never no where every
match is terminal in all schedules around it, and where no match has more than two schedules around
it, it is yes exactly then. -/
theorem allTerminal_iff_innermost [RankedNesting ω] {test : ω → Bool} {slots : List (Slot ω)}
    (hflat : FlatMatches test slots) :
    (allTerminal test slots = true ↔ ∀ op levels, Occurs op slots levels → test op = true →
      TerminalThroughout op (levels.take 2)) ∧
    ((∀ op levels, Occurs op slots levels → test op = true → TerminalThroughout op levels) →
      allTerminal test slots = true) ∧
    ((∀ op levels, Occurs op slots levels → test op = true → levels.length ≤ 2) →
      (allTerminal test slots = true ↔
        ∀ op levels, Occurs op slots levels → test op = true → TerminalThroughout op levels)) := by
  have hiff := allTerminal_iff hflat
  refine ⟨hiff, fun h => hiff.2 fun op levels hop hmatch level hlevel => ?_, fun hshallow => ?_⟩
  · exact h op levels hop hmatch level (List.mem_of_mem_take hlevel)
  · rw [hiff]
    refine forall₄_congr fun op levels hop hmatch => ?_
    rw [List.take_of_length_le (hshallow op levels hop hmatch)]

/-- A match in the body of the first of two operations, on the resource of the second. -/
theorem allTerminal_iff_innermost_followed :
    let m : Instruction := { name := "m", resources := [.line 0] }
    let h : Instruction := { name := "h", resources := [.line 0] }
    let slots := [[nesting "sub" [[m]]], [h]].map slotOf
    FlatMatches (flatNamed "m") slots ∧
      (∀ op levels, Occurs op slots levels → flatNamed "m" op = true → levels.length ≤ 2) ∧
      allTerminal (flatNamed "m") slots = false ∧
      ¬∀ op levels, Occurs op slots levels → flatNamed "m" op = true →
        TerminalThroughout op levels := by
  intro m h slots
  have hflat := flatMatches_flatNamed "m" slots
  have hshallow : ∀ op levels, Occurs op slots levels → flatNamed "m" op = true →
      levels.length ≤ 2 :=
    fun op levels hop _ => hop.length_le_nestingBound.trans (by decide)
  have hno : allTerminal (flatNamed "m") slots = false := by decide +kernel
  refine ⟨hflat, hshallow, hno, fun hall => ?_⟩
  rw [((allTerminal_iff_innermost hflat).2.2 hshallow).2 hall] at hno
  cases hno

/-- With one more operation around the match, the use of its resource afterwards is missed. -/
theorem allTerminal_misses_outermost :
    let m : Instruction := { name := "m", resources := [.line 0] }
    let h : Instruction := { name := "h", resources := [.line 0] }
    let slots := [[nesting "out" [[nesting "sub" [[m]]]]], [h]].map slotOf
    FlatMatches (flatNamed "m") slots ∧ ¬(allTerminal (flatNamed "m") slots = true ↔
      ∀ op levels, Occurs op slots levels → flatNamed "m" op = true →
        TerminalThroughout op levels) := by
  intro m h slots
  have hyes : allTerminal (flatNamed "m") slots = true := by decide +kernel
  have hm : Occurs m slots (([⟨_, 0⟩] ++ [⟨_, 0⟩]) ++ [⟨slots, 0⟩]) :=
    .inside (List.mem_singleton_self _) rfl <|
      .inside (List.mem_singleton_self _) rfl <| .here (List.mem_singleton_self _)
  refine ⟨flatMatches_flatNamed "m" slots, fun hiff => ?_⟩
  have houtermost := hiff.1 hyes m _ hm rfl ⟨slots, 0⟩ (by simp)
  have hfree : (slotOf [h]).touches [.line 0] = false := houtermost 1 _ Nat.zero_lt_one rfl
  revert hfree
  decide

/-! ### From level to level -/

/-- The outer level is left alone as far as the question about some match can see: either nothing
comes after it, or some match that stands directly in the inner schedule is terminal in it. -/
def Relays (test : ω → Bool) (inner outer : Level ω) : Prop :=
  outer.index + 1 = outer.slots.length ∨
    ∃ k op, op ∈ operationsAt inner.slots k ∧ test op = true ∧ outer.Terminal op

/-- One more level relays the answer if the match inside it did. -/
theorem Occurs.isChain_relays_concat {test : ω → Bool} {op : ω} {inner slots : List (Slot ω)}
    {levels : List (Level ω)} (h : Occurs op inner levels) (i : Nat) :
    (levels ++ [(⟨slots, i⟩ : Level ω)]).IsChain (Relays test) ↔ levels.IsChain (Relays test) ∧
      (i + 1 = slots.length ∨
        ∃ k op, op ∈ operationsAt inner k ∧ test op = true ∧ Level.Terminal ⟨slots, i⟩ op) := by
  obtain ⟨k, hlast⟩ := h.exists_getLast?
  rw [List.isChain_append, hlast]
  simp [Relays]

theorem anyTerminal_iff [RankedNesting ω] {test : ω → Bool} {slots : List (Slot ω)}
    (hflat : FlatMatches test slots) :
    anyTerminal test slots = true ↔ ∃ op levels, Occurs op slots levels ∧ test op = true ∧
      TerminalThroughout op (levels.take 1) ∧ levels.IsChain (Relays test) := by
  induction slots using nested_induction with
  | step slots ih =>
  rw [anyTerminal_iff_step]
  constructor
  · intro h
    rcases h with ⟨i, op, hop, hmatch, -, hterminal⟩ | ⟨i, outer, inner, houter, hbody, hany, hhere⟩
    · refine ⟨op, _, .here hop, hmatch, ?_, List.isChain_singleton _⟩
      intro level hlevel
      obtain rfl := List.mem_singleton.1 (List.mem_of_mem_take hlevel)
      exact hterminal
    · have hinner := ih i outer inner houter hbody (hflat.inner houter hbody)
      obtain ⟨op, levels, hop, hmatch, hhead, hchain⟩ := hinner.1 hany
      refine ⟨op, _, .inside houter hbody hop, hmatch, ?_, ?_⟩
      · rw [List.take_append_of_le_length (List.length_pos_iff.2 hop.ne_nil)]
        exact hhead
      · exact (hop.isChain_relays_concat i).2 ⟨hchain, hhere⟩
  · intro h
    obtain ⟨op, levels, hop, hmatch, hhead, hchain⟩ := h
    cases hop with
    | here hop =>
      exact .inl ⟨_, op, hop, hmatch, hflat op _ (.here hop) hmatch, hhead _ List.mem_cons_self⟩
    | inside houter hbody hinner =>
      rw [List.take_append_of_le_length (List.length_pos_iff.2 hinner.ne_nil)] at hhead
      obtain ⟨hchain, hhere⟩ := (hinner.isChain_relays_concat _).1 hchain
      refine .inr ⟨_, _, _, houter, hbody, ?_, hhere⟩
      refine (ih _ _ _ houter hbody (hflat.inner houter hbody)).2 ?_
      exact ⟨op, _, hinner, hmatch, hhead, hchain⟩

/-- With at most two schedules around it, a match that is terminal in them relays the answer. -/
theorem TerminalThroughout.isChain_relays {test : ω → Bool} {slots : List (Slot ω)} {op : ω}
    {levels : List (Level ω)} (h : TerminalThroughout op levels) (hop : Occurs op slots levels)
    (hmatch : test op = true) (hshallow : levels.length ≤ 2) : levels.IsChain (Relays test) := by
  rcases hop.direct_or_in_body hshallow with ⟨i, rfl, -⟩ | ⟨i, outer, inner, k, -, -, hk, rfl⟩
  · exact List.isChain_singleton _
  · refine List.isChain_pair.2 (.inr ⟨k, op, hk, hmatch, ?_⟩)
    exact h _ (by simp)

/-- Where the match is the only one that stands directly in its body, what relays the answer is the
match itself, or that nothing comes after the body. -/
theorem Occurs.terminalThroughout {test : ω → Bool} {slots : List (Slot ω)} {op : ω}
    {levels : List (Level ω)} (hop : Occurs op slots levels) (hmatch : test op = true)
    (hshallow : levels.length ≤ 2)
    (hunique : ∀ i outer inner, outer ∈ operationsAt slots i → body? outer = some inner →
      ∀ k m k' m', m ∈ operationsAt inner k → test m = true → m' ∈ operationsAt inner k' →
        test m' = true → m = m')
    (hhead : TerminalThroughout op (levels.take 1)) (hchain : levels.IsChain (Relays test)) :
    TerminalThroughout op levels := by
  rcases hop.direct_or_in_body hshallow with
    ⟨i, rfl, -⟩ | ⟨i, outer, inner, k, houter, hbody, hk, rfl⟩
  · exact hhead
  · intro level hlevel
    rcases List.mem_cons.1 hlevel with rfl | hlevel
    · exact hhead _ (by simp)
    · obtain rfl := List.mem_singleton.1 hlevel
      rcases List.isChain_pair.1 hchain with hlast | ⟨k', m', hk', hmatch', hterminal⟩
      · exact Level.terminal_of_length_le hlast.ge op
      · rw [hunique i outer inner houter hbody k op k' m' hk hmatch hk' hmatch']
        exact hterminal

/-- **Whether some match is terminal is asked level by level.** The answer is that some match is
terminal in the schedule that holds it, and that each schedule around that one, outwards, relays the
answer, by a match of its own. Where no match has more than two schedules around it, it is yes if
some match is terminal in all schedules around it, and where no body holds two matches besides, it
is yes exactly then. -/
theorem anyTerminal_iff_relayed [RankedNesting ω] {test : ω → Bool} {slots : List (Slot ω)}
    (hflat : FlatMatches test slots) :
    (anyTerminal test slots = true ↔ ∃ op levels, Occurs op slots levels ∧ test op = true ∧
      TerminalThroughout op (levels.take 1) ∧ levels.IsChain (Relays test)) ∧
    ((∀ op levels, Occurs op slots levels → test op = true → levels.length ≤ 2) →
      (∃ op levels, Occurs op slots levels ∧ test op = true ∧ TerminalThroughout op levels) →
        anyTerminal test slots = true) ∧
    ((∀ op levels, Occurs op slots levels → test op = true → levels.length ≤ 2) →
      (∀ i outer inner, outer ∈ operationsAt slots i → body? outer = some inner →
        ∀ k m k' m', m ∈ operationsAt inner k → test m = true → m' ∈ operationsAt inner k' →
          test m' = true → m = m') →
      (anyTerminal test slots = true ↔
        ∃ op levels, Occurs op slots levels ∧ test op = true ∧ TerminalThroughout op levels)) := by
  have hiff := anyTerminal_iff hflat
  have hof : (∀ op levels, Occurs op slots levels → test op = true → levels.length ≤ 2) →
      (∃ op levels, Occurs op slots levels ∧ test op = true ∧ TerminalThroughout op levels) →
        anyTerminal test slots = true := by
    intro hshallow h
    obtain ⟨op, levels, hop, hmatch, hall⟩ := h
    refine hiff.2 ⟨op, levels, hop, hmatch, ?_, ?_⟩
    · exact fun level hlevel => hall level (List.mem_of_mem_take hlevel)
    · exact hall.isChain_relays hop hmatch (hshallow op levels hop hmatch)
  refine ⟨hiff, hof, fun hshallow hunique => ⟨fun h => ?_, hof hshallow⟩⟩
  obtain ⟨op, levels, hop, hmatch, hhead, hchain⟩ := hiff.1 h
  refine ⟨op, levels, hop, hmatch, ?_⟩
  exact hop.terminalThroughout hmatch (hshallow op levels hop hmatch) hunique hhead hchain

/-- A match in the body of the first of two operations, on another resource than the second. -/
theorem anyTerminal_iff_relayed_apart :
    let m : Instruction := { name := "m", resources := [.line 0] }
    let h : Instruction := { name := "h", resources := [.line 1] }
    let slots := [[nesting "sub" [[m]]], [h]].map slotOf
    FlatMatches (flatNamed "m") slots ∧
      (∀ op levels, Occurs op slots levels → flatNamed "m" op = true → levels.length ≤ 2) ∧
      (∀ i outer inner, outer ∈ operationsAt slots i → body? outer = some inner →
        ∀ k m k' m', m ∈ operationsAt inner k → flatNamed "m" m = true →
          m' ∈ operationsAt inner k' → flatNamed "m" m' = true → m = m') ∧
      anyTerminal (flatNamed "m") slots = true ∧
      ∃ op levels, Occurs op slots levels ∧ flatNamed "m" op = true ∧
        TerminalThroughout op levels := by
  intro m h slots
  have hflat := flatMatches_flatNamed "m" slots
  have hshallow : ∀ op levels, Occurs op slots levels → flatNamed "m" op = true →
      levels.length ≤ 2 :=
    fun op levels hop _ => hop.length_le_nestingBound.trans (by decide)
  have hyes : anyTerminal (flatNamed "m") slots = true := by decide +kernel
  have hunique : ∀ i outer inner, outer ∈ operationsAt slots i → body? outer = some inner →
      ∀ k a k' b, a ∈ operationsAt inner k → flatNamed "m" a = true →
        b ∈ operationsAt inner k' → flatNamed "m" b = true → a = b := by
    intro i outer inner houter hbody k a k' b ha _ hb _
    rw [operationsAt_map_slotOf] at houter
    rcases i with _ | _ | i
    · obtain rfl := List.mem_singleton.1 houter
      cases hbody
      rw [operationsAt_map_slotOf] at ha hb
      cases k <;> cases k' <;> simp_all
    · obtain rfl := List.mem_singleton.1 houter
      cases hbody
    · cases houter
  exact ⟨hflat, hshallow, hunique, hyes,
    ((anyTerminal_iff_relayed hflat).2.2 hshallow hunique).1 hyes⟩

/-- The match that is terminal in the body and the one that is terminal around it are two. -/
theorem anyTerminal_of_two_matches :
    let m : Instruction := { name := "m", resources := [.line 0] }
    let m' : Instruction := { name := "m", resources := [.line 1] }
    let h : Instruction := { name := "h", resources := [.line 1] }
    let x : Instruction := { name := "x", resources := [.line 0] }
    let slots := [[nesting "sub" [[m, m'], [h]]], [x]].map slotOf
    FlatMatches (flatNamed "m") slots ∧ ¬(anyTerminal (flatNamed "m") slots = true ↔
      ∃ op levels, Occurs op slots levels ∧ flatNamed "m" op = true ∧
        TerminalThroughout op levels) := by
  intro m m' h x slots
  have hyes : anyTerminal (flatNamed "m") slots = true := by decide +kernel
  refine ⟨flatMatches_flatNamed "m" slots, fun hiff => ?_⟩
  obtain ⟨op, levels, hop, hmatch, hall⟩ := hiff.1 hyes
  have hshallow : levels.length ≤ 2 := hop.length_le_nestingBound.trans (by decide)
  rcases hop.direct_or_in_body hshallow with
    ⟨i, -, hhere⟩ | ⟨i, outer, inner, k, houter, hbody, hinner, rfl⟩
  · rw [operationsAt_map_slotOf] at hhere
    rcases i with _ | _ | i
    · obtain rfl := List.mem_singleton.1 hhere
      cases hmatch
    · obtain rfl := List.mem_singleton.1 hhere
      cases hmatch
    · cases hhere
  · rw [operationsAt_map_slotOf] at houter
    rcases i with _ | _ | i
    · obtain rfl := List.mem_singleton.1 houter
      cases hbody
      rw [operationsAt_map_slotOf] at hinner
      rcases k with _ | _ | k
      · rcases List.mem_cons.1 hinner with rfl | hinner
        · have hfree : (slotOf [x]).touches [.line 0] = false :=
            hall ⟨slots, 0⟩ (by simp) 1 _ Nat.zero_lt_one rfl
          revert hfree
          decide
        · obtain rfl := List.mem_singleton.1 hinner
          have hfree : (slotOf [h]).touches [.line 1] = false :=
            hall ⟨[[m, m'], [h]].map slotOf, 0⟩ (by simp) 1 _ Nat.zero_lt_one rfl
          revert hfree
          decide
      · obtain rfl := List.mem_singleton.1 hinner
        cases hmatch
      · cases hinner
    · obtain rfl := List.mem_singleton.1 houter
      cases hbody
    · cases houter

end Timetable
