import Timetable.Schedule.FrontierInsert

/-!
# Batches of edits

Several edits are made on a copy of the schedule, which takes the place of the schedule only if all
of them succeed. Insertions are made in the order of their indices, and later indices are moved by
the slots that earlier insertions have opened; insertions at one index are made as if one after the
other at that index, so that a later one comes to stand before an earlier one.

* `Schedule.batchInsert`: insertions before slots.
* `Schedule.batchRemove`, `Schedule.batchReplace`, `Schedule.batchInsertInto`: edits inside slots.
-/

namespace Timetable.Schedule

variable {ω : Type} [Operation ω]

/-! ### Insertions before slots -/

/-- Neighbours with one index put together. -/
def groupByIndex {β : Type} : List (Nat × β) → List (Nat × List β)
  | [] => []
  | (i, b) :: rest =>
    match groupByIndex rest with
    | [] => [(i, [b])]
    | (j, bs) :: groups => if i = j then (i, b :: bs) :: groups else (i, [b]) :: (j, bs) :: groups

/-- Inserts each group at its index moved by `shift`, the last bundle of a group first. The shift
itself is at most the number of insertions that have been made. -/
def insertGroups (build : Build) (s : Schedule ω) (shift : Nat) :
    List (Nat × List (Bundle ω)) → Except Fault (Schedule ω)
  | [] => .ok s
  | (index, bundles) :: groups =>
    if build.stops (index + shift) then .error .overflow
    else
      let target := word (index + shift)
      let inserted := s.insert target (.sequence bundles.reverse) .earliest
      match inserted.answer with
      | .error e => .error e
      | .ok next => inserted.left.insertGroups build (shift + (next - target)) groups

/-- Inserts bundles, each as early as it can go, before the slots of their indices. -/
def batchInsert (build : Build) (s : Schedule ω) (edits : List (Nat × Bundle ω)) : Outcome ω Unit :=
  let groups := groupByIndex (edits.mergeSort fun a b => a.1 ≤ b.1)
  s.commit ((s.insertGroups build 0 groups).map (·, ()))

/-! ### Edits inside slots -/

/-- The slot of the index, which has to hold the operation. -/
def slotHolding (s : Schedule ω) (index : Nat) (op : ω) : Except Fault (Slot ω) :=
  match s.slots[index]? with
  | none => .error (.noSlot index s.length)
  | some slot => if slot.contains op then .ok slot else .error (.notInSlot index)

def removeEach (s : Schedule ω) : List (Nat × ω) → Except Fault (Schedule ω)
  | [] => .ok s
  | (index, op) :: edits => do
    let slot ← s.slotHolding index op
    removeEach { s with slots := s.slots.set index (slot.without op) } edits

/-- Takes operations out of slots. Each has to be there when its turn comes. -/
def batchRemove (s : Schedule ω) (edits : List (Nat × ω)) : Outcome ω Unit :=
  s.commit ((s.removeEach edits).map (·, ()))

/-- Puts one operation in the place of another, for each edit. -/
def replaceEach (s : Schedule ω) : List (Nat × ω × ω) → Except Fault (Schedule ω)
  | [] => .ok s
  | (index, old, new) :: edits => do
    checkOperation new
    let slot ← s.slotHolding index old
    let slot' ← slot.replacing old new
    replaceEach { s with slots := s.slots.set index slot' } edits

/-- Puts operations in the place of others. Each other one has to be there when its turn comes. -/
def batchReplace (s : Schedule ω) (edits : List (Nat × ω × ω)) : Outcome ω Unit :=
  s.commit ((s.replaceEach edits).map (·, ()))

/-- Adds operations to the slot of the index, as far as it is free and the rule accepts them. -/
def joinSlot (s : Schedule ω) (index : Nat) : List ω → Except Fault (Schedule ω)
  | [] => .ok s
  | op :: ops =>
    match s.slots[index]? with
    | none => .error (.noSlot index s.length)
    | some slot => do
      checkOperation op
      let slot' ← slot.push op
      if s.accepts op slot then joinSlot { s with slots := s.slots.set index slot' } index ops
      else .error (.rejected index)

def joinEach (s : Schedule ω) : List (Nat × Bundle ω) → Except Fault (Schedule ω)
  | [] => .ok s
  | (index, bundle) :: edits =>
    if index < s.length then do
      let s' ← s.joinSlot index bundle.operations
      s'.joinEach edits
    else .error (.noSlot index s.length)

/-- Adds bundles to slots that exist. -/
def batchInsertInto (s : Schedule ω) (edits : List (Nat × Bundle ω)) : Outcome ω Unit :=
  s.commit ((s.joinEach edits).map (·, ()))

end Timetable.Schedule
