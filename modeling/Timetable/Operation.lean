import Timetable.Footprint
import Timetable.Resource
import Timetable.Ordered.Map

/-!
# Operations and slots

An operation acts on a list of resources, reads and writes keys, and may hold a schedule of its
own. Operations that share no resource can happen at the same time: a slot is a list of such
operations together with an index that says, for each resource, which operation acts on it.

* `Slot`: the operations and the index.
* `Operation`: what a schedule asks of an operation.
* `RankedNesting`: operations whose nesting comes to an end, so that it can be searched.
-/

namespace Timetable

/-- Operations that happen at the same time. -/
structure Slot (ω : Type) where
  /-- The operations in the order in which they were added. -/
  operations : List ω
  /-- For each resource in use, the place of its operation among the operations. -/
  index : SortedMap Resource Nat

/-- What a schedule asks of an operation. -/
class Operation (ω : Type) extends BEq ω where
  /-- The resources that the operation acts on, in order. -/
  resources : ω → List Resource
  /-- The keys that it reads and writes. -/
  footprint : ω → Footprint
  /-- The slots of the schedule that it holds, if it holds one. -/
  body? : ω → Option (List (Slot ω))
  /-- Whether a schedule nested in it, at any depth, contains itself. -/
  nestsInItself : ω → Bool

export Operation (resources footprint body? nestsInItself)

/-- Operations whose nesting has a finite depth. -/
class RankedNesting (ω : Type) [Operation ω] where
  /-- How deep the schedule inside the operation nests. -/
  depth : ω → Nat
  /-- What is inside an operation is less deep than the operation. -/
  depth_lt : ∀ {op : ω} {slots : List (Slot ω)} {slot : Slot ω} {inner : ω},
    body? op = some slots → slot ∈ slots → inner ∈ slot.operations → depth inner < depth op

end Timetable
