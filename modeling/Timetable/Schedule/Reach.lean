import Timetable.BucketQueue
import Timetable.Frontier

/-!
# How far a frontier can advance

From a starting frontier each resource advances over the operations on it until one of them stops
it. An operation stops its resources when it is a blocker, when it acts on a resource outside the
frontier or before its start there, or when one of its resources has been stopped already.

The walk keeps a queue of the next operation of every resource, in the order of slots. An operation
that all of its resources have reached is passed; any other one ends the walk of the resources that
have reached it.

* `Walk`: the state of the walk; `Walk.meet` is one step.
* `reachableFrontier`: the frontier at which the walk ends.
-/

namespace Timetable

/-- The state of a walk forward from a frontier. -/
structure Walk where
  /-- The resources that have reached an operation and have not been stopped. -/
  active : SortedSet Resource
  /-- Where resources have been stopped. -/
  stops : Frontier
  /-- The places of the operations still to be met, under the indices of their slots. -/
  queue : BucketQueue Nat

namespace Walk

variable {ω : Type}

/-- The index of the first slot from `first` on that uses the resource, and the place there. -/
def nextPlace? (slots : List (Slot ω)) (r : Resource) (first : Nat) : Option (Nat × Nat) := do
  let index ← nextUse? slots [r] first
  let slot ← slots[index]?
  let position ← slot.positionOf? r
  return (index, position)

/-- Queues the next operation on the resource. Where there is none the resource stops at the end,
or at its start if that lies beyond the end. -/
def advance (slots : List (Slot ω)) (start : Frontier) (w : Walk) (r : Resource) (first : Nat) :
    Walk :=
  match nextPlace? slots r first with
  | some (index, position) => { w with queue := (w.queue.enqueue index position).2 }
  | none =>
    { w with
      stops := w.stops.insert r (max slots.length (start.getD r 0))
      active := w.active.erase r }

def begin (slots : List (Slot ω)) (start : Frontier) : Walk :=
  start.entries.foldl (fun w e => w.advance slots start e.1 e.2) ⟨∅, ∅, .empty true⟩

/-- Notes that a resource has reached the slot, if it has been started and not been stopped. -/
def reach (start : Frontier) (index : Nat) (w : Walk) (r : Resource) : Walk :=
  if (start.get? r).any (· ≤ index) && !w.stops.contains r then
    { w with active := w.active.insert r }
  else w

/-- Ends the walk of a resource at the slot, if it has come that far. -/
def stop (index : Nat) (w : Walk) (r : Resource) : Walk :=
  if w.active.contains r then
    { w with active := w.active.erase r, stops := w.stops.insert r index }
  else w

variable [Operation ω]

/-- Meets the operation in the slot of the index. -/
def meet (slots : List (Slot ω)) (start : Frontier) (blocks : ω → Bool) (w : Walk) (index : Nat)
    (op : ω) : Walk :=
  let rs := resources op
  let w := rs.foldl (reach start index) w
  if rs.all w.active.contains && !blocks op then
    rs.foldl (fun w r => w.advance slots start r (index + 1)) w
  else rs.foldl (stop index) w

/-- Meets the queued operations in order, at most so many of them. -/
def run (slots : List (Slot ω)) (start : Frontier) (blocks : ω → Bool) : Nat → Walk → Walk
  | 0, w => w
  | steps + 1, w =>
    match w.queue.dequeue with
    | (none, _) => w
    | (some (index, position), queue) =>
      let w := { w with queue }
      match slots[index]?.bind fun slot => slot.operations[position]? with
      | none => run slots start blocks steps w
      | some op => run slots start blocks steps (w.meet slots start blocks index op)

end Walk

/-- How far the resources of a frontier can advance. No operation is met twice, so there are at most
as many steps as there are operations. -/
def reachableFrontier {ω : Type} [Operation ω] (slots : List (Slot ω)) (start : Frontier)
    (blocks : ω → Bool) : Frontier :=
  let steps := (slots.flatMap Slot.operations).length
  (Walk.run slots start blocks steps (Walk.begin slots start)).stops

end Timetable
