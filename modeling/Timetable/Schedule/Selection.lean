import Timetable.BucketQueue
import Timetable.Frontier
import Timetable.Schedule

/-!
# Selecting operations

* `matching`: the operations that satisfy a test.
* `operationsBetween`: the operations between two frontiers.
* `operationsUntilBlocked`: the operations behind a frontier, up to where blockers cut it off.

Every operation comes with the index of its slot, and the answers are in the order of slots.
-/

namespace Timetable

variable {ω : Type}

def matching (slots : List (Slot ω)) (test : ω → Bool) : List (Nat × ω) :=
  (Schedule.indexedOperations slots).filter fun e => test e.2

def operationAtPlace? (slots : List (Slot ω)) (index position : Nat) : Option ω :=
  slots[index]?.bind fun slot => slot.operations[position]?

variable [Operation ω]

/-! ### Between two frontiers -/

/-- The places of the operations on one resource from `first` up to but without `last`. Where
crossing operations are left out, an operation counts only if it acts on no resource but those
involved. -/
def placesOn (slots : List (Slot ω)) (involved : SortedSet Resource) (omitCrossing : Bool)
    (r : Resource) (first last : Nat) : List (Nat × Nat) :=
  (List.range' first (min last slots.length - first)).filterMap fun index => do
    let slot ← slots[index]?
    let position ← slot.positionOf? r
    let op ← slot.operations[position]?
    if omitCrossing && !(resources op).all involved.contains then none
    else some (index, position)

/-- The operations between two frontiers. A resource that `start` leaves out begins at zero, one
that `stop` leaves out ends at the length. Each operation is listed once, those of a slot in the
order of the least resource that selects them. -/
def operationsBetween (slots : List (Slot ω)) (start stop : Frontier) (omitCrossing : Bool) :
    List (Nat × ω) :=
  let involved : SortedSet Resource := .ofList (start.keys ++ stop.keys)
  let places := involved.toList.flatMap fun r =>
    placesOn slots involved omitCrossing r (start.getD r 0) (stop.getD r slots.length)
  let found := places.foldl (fun (q : BucketQueue Nat) e => (q.enqueue e.1 e.2).2) (.empty true)
  found.drain.filterMap fun e => (operationAtPlace? slots e.1 e.2).map (e.1, ·)

/-! ### Until blocked -/

/-- The state of a scan: the resources that are cut off, and what has been found. -/
structure Scan (ω : Type) where
  blocked : SortedSet Resource := ∅
  found : List (Nat × ω) := []

/-- Looks at one operation. A blocker cuts off its resources, and so does an operation on a resource
that is cut off; any other one is found if the frontier has begun on one of its resources. -/
def Scan.look (start : Frontier) (blocks : ω → Bool) (index : Nat) (s : Scan ω) (op : ω) :
    Scan ω :=
  let rs := resources op
  if blocks op || rs.any s.blocked.contains then { s with blocked := s.blocked.insertAll rs }
  else if rs.any fun r => (start.get? r).any (· ≤ index) then
    { s with found := s.found ++ [(index, op)] }
  else s

/-- Looks at slots in order, until every resource of the frontier is cut off. -/
def Scan.run (start : Frontier) (blocks : ω → Bool) : Scan ω → List (Slot ω × Nat) → Scan ω
  | s, [] => s
  | s, (slot, index) :: rest =>
    let s' := slot.operations.foldl (Scan.look start blocks index) s
    if start.keys.all s'.blocked.contains then s' else Scan.run start blocks s' rest

/-- The operations behind a frontier that are reached before blockers cut off every resource. -/
def operationsUntilBlocked (slots : List (Slot ω)) (start : Frontier) (blocks : ω → Bool) :
    List (Nat × ω) :=
  match start.values.min? with
  | none => []
  | some least => (Scan.run start blocks {} (slots.zipIdx.drop least)).found

end Timetable
