import Timetable.Resource.Text

/-!
# Faults

The reasons for which a schedule refuses what it is asked to do, and the sentence that reports
each of them. Slots are counted from zero; a schedule of length `n` has the slots below `n`.

One of them is no refusal: at a sum that is too large the program stops. What it was working on is a
copy, so that the schedule is left as it was here too.
-/

namespace Timetable

/-- Why a schedule refuses a request. -/
inductive Fault where
  /-- Two operations of one slot, or one operation twice, use the resource. -/
  | overlap (resource : Resource)
  /-- Two merged schedules use the resource in one slot. -/
  | collision (slot : Nat) (resource : Resource)
  /-- The bounds are in the wrong order or reach past the end. -/
  | badRange (start stop length : Nat)
  /-- A search was limited to a negative distance. -/
  | negativeDistance (distance : Int)
  /-- The frontier of a resource has already passed the slot of an insertion. -/
  | frontierPassed (resource : Resource) (frontier start : Nat)
  /-- No strategy has the name. -/
  | unknownStrategy (name : String)
  /-- No alignment has the name. -/
  | unknownAlignment (name : String)
  /-- Something else stands where a slot is required. -/
  | notASlot (kind : String)
  /-- The schedule has no slot of the index. -/
  | noSlot (index length : Nat)
  /-- The slot does not hold the operation. -/
  | notInSlot (index : Nat)
  /-- The acceptance rule keeps the operation out of the slot. -/
  | rejected (index : Nat)
  /-- The schedule inside an operation contains itself. -/
  | cyclicNesting
  /-- A sum is too large, and the program stops. -/
  | overflow
  deriving DecidableEq

namespace Fault

open Text.Decimal (natText intText)

def message : Fault → String
  | overlap resource => "structural violation: operations overlap on resource " ++ resource.render
  | collision slot resource =>
    "overlapping operations between merged schedules at slot " ++ natText slot ++
      " on resource " ++ resource.render
  | badRange start stop length =>
    "invalid range [" ++ natText start ++ ", " ++ natText stop ++ ") for schedule of length " ++
      natText length
  | negativeDistance distance =>
    "negative max_distance: " ++ intText distance
  | frontierPassed resource frontier start =>
    "frontier for resource " ++ resource.render ++ " is at " ++ natText frontier ++
      ", after start " ++ natText start
  | unknownStrategy name => "unrecognized insert strategy: " ++ name
  | unknownAlignment name => "unrecognized alignment: " ++ name
  | notASlot kind => "type mismatch: expected a time slot, got " ++ kind
  | noSlot index length =>
    "slot index " ++ natText index ++ " out of bounds for schedule of length " ++ natText length
  | notInSlot index => "operation not found in slot " ++ natText index
  | rejected index => "placement rejected by acceptance predicate at slot " ++ natText index
  | cyclicNesting => "cyclic nesting: a schedule is nested inside itself"
  | overflow => "attempt to add with overflow"

/-- An overlap met while merging slot `slot` is a collision there. -/
def inMerge (slot : Nat) : Fault → Fault
  | overlap resource => collision slot resource
  | other => other

end Fault

end Timetable
