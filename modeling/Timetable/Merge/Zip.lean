import Timetable.Schedule

/-!
# Zipping schedules

Schedules are laid on top of each other, lined up by their first or by their last slots. Each slot
of the result holds what the slots that meet there hold. Two schedules that use one resource in one
slot collide.

* `zipSource?`: the slot of a schedule that meets a given slot of the result.
* `zip`: the merged slots.
-/

namespace Timetable

variable {ω : Type} [Operation ω]

/-- The slot of a schedule that comes to lie at index `k` of a result of length `n`. -/
def zipSource? (align : Alignment) (n k : Nat) (slots : List (Slot ω)) : Option (Slot ω) :=
  match align with
  | .left => slots[k]?
  | .right | .first => if n ≤ slots.length + k then slots[slots.length + k - n]? else none

/-- The union of slots in order. Slots that share a resource collide at index `k`. -/
def unite (k : Nat) (merged : Slot ω) : List (Slot ω) → Except Fault (Slot ω)
  | [] => .ok merged
  | slot :: slots => do
    let next ← (merged.disjointUnion slot).mapError (Fault.inMerge k)
    unite k next slots

def longest (schedules : List (List (Slot ω))) : Nat :=
  schedules.foldl (fun n slots => max n slots.length) 0

/-- The slots from index `k` on, `count` of them, of the schedules laid on top of each other. -/
def zipFrom (schedules : List (List (Slot ω))) (align : Alignment) (k : Nat) :
    Nat → Except Fault (List (Slot ω))
  | 0 => .ok []
  | count + 1 => do
    let n := longest schedules
    let slot ← unite k .empty (schedules.filterMap (zipSource? align n k))
    let later ← zipFrom schedules align (k + 1) count
    return slot :: later

/-- The schedules laid on top of each other. -/
def zip (schedules : List (List (Slot ω))) (align : Alignment) : Except Fault (List (Slot ω)) :=
  zipFrom schedules align 0 (longest schedules)

end Timetable
