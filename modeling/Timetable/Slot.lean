import Timetable.Operation
import Timetable.Fault

/-!
# Building and asking slots

No two operations of a slot share a resource. Adding an operation checks that none of its resources
is in use and enters them into the index; taking operations away builds the index anew. Slots are
equal when they hold equal operations, in whatever order.

* `Slot.push`, `Slot.ofOperations`, `Slot.disjointUnion`, `Slot.replacing`: checked building.
* `Slot.project`, `Slot.withoutTouching`, `Slot.without`: parts of a slot.
* `Slot.operationAt?`, `Slot.operatesOn`, `Slot.touches`, `Slot.contains`: questions.
-/

namespace Timetable.Slot

variable {ω : Type}

def empty : Slot ω := ⟨[], ∅⟩

instance : Inhabited (Slot ω) := ⟨empty⟩

def size (s : Slot ω) : Nat := s.operations.length

def isEmpty (s : Slot ω) : Bool := s.operations.isEmpty

def resourcesInUse (s : Slot ω) : List Resource := s.index.keys

def positionOf? (s : Slot ω) (r : Resource) : Option Nat := s.index.get? r

def operationAt? (s : Slot ω) (r : Resource) : Option ω :=
  (s.positionOf? r).bind fun position => s.operations[position]?

def operatesOn (s : Slot ω) (r : Resource) : Bool := s.index.contains r

def touches (s : Slot ω) (rs : List Resource) : Bool := rs.any s.operatesOn

/-- Enters the resources of the operation at `position`. The first one in use is an overlap. -/
def claim (position : Nat) : List Resource → SortedMap Resource Nat →
    Except Fault (SortedMap Resource Nat)
  | [], index => .ok index
  | r :: rs, index =>
    if index.contains r then .error (.overlap r) else claim position rs (index.insert r position)

/-- The index of operations that are known to share no resource. -/
def indexBy (uses : ω → List Resource) (ops : List ω) : SortedMap Resource Nat :=
  ops.zipIdx.foldl (fun index e => (uses e.1).foldl (fun m r => m.insert r e.2) index) ∅

/-! ### Comparing slots

How operations are compared, and which resources they act on, are arguments here, so that the
comparison of slots can serve the comparison of operations that hold slots. -/

/-- Whether the slot holds an operation equal to the given one. The first resource of the operation
tells where to look; an operation without resources is looked for everywhere. -/
def holdsBy (uses : ω → List Resource) (eq : ω → ω → Bool) (s : Slot ω) (op : ω) : Bool :=
  match (uses op).head? with
  | some r =>
    match s.operationAt? r with
    | some found => eq found op
    | none => false
  | none => s.operations.any fun found => eq found op

/-- Whether the slots have equally many operations and the second one holds those of the first. -/
def sameBy (uses : ω → List Resource) (eq : ω → ω → Bool) (s t : Slot ω) : Bool :=
  s.size == t.size && s.operations.all (t.holdsBy uses eq)

/-- Whether two lists of slots agree slot by slot. -/
def listSameBy (uses : ω → List Resource) (eq : ω → ω → Bool) :
    List (Slot ω) → List (Slot ω) → Bool
  | [], [] => true
  | s :: ss, t :: ts => s.sameBy uses eq t && listSameBy uses eq ss ts
  | _, _ => false

/-! ### Building slots -/

variable [Operation ω]

def push (s : Slot ω) (op : ω) : Except Fault (Slot ω) := do
  let index ← claim s.operations.length (resources op) s.index
  return ⟨s.operations ++ [op], index⟩

def pushAll (s : Slot ω) : List ω → Except Fault (Slot ω)
  | [] => .ok s
  | op :: ops => do
    let s' ← s.push op
    s'.pushAll ops

def ofOperations (ops : List ω) : Except Fault (Slot ω) := empty.pushAll ops

/-- The operations of both slots. The least resource that both use is an overlap. -/
def disjointUnion (s t : Slot ω) : Except Fault (Slot ω) :=
  match t.resourcesInUse.find? s.operatesOn with
  | some r => .error (.overlap r)
  | none => s.pushAll t.operations

/-- The slot in which every operation equal to `old` gives way to `new`. -/
def replacing (s : Slot ω) (old new : ω) : Except Fault (Slot ω) :=
  ofOperations (s.operations.map fun op => if op == old then new else op)

def filter (s : Slot ω) (keep : ω → Bool) : Slot ω :=
  let ops := s.operations.filter keep
  ⟨ops, indexBy resources ops⟩

def actsOnAny (rs : List Resource) (op : ω) : Bool := (resources op).any rs.contains

def project (s : Slot ω) (rs : List Resource) : Slot ω := s.filter (actsOnAny rs)

def withoutTouching (s : Slot ω) (rs : List Resource) : Slot ω :=
  s.filter fun op => !actsOnAny rs op

def without (s : Slot ω) (op : ω) : Slot ω := s.filter fun existing => !(existing == op)

def contains (s : Slot ω) (op : ω) : Bool := s.holdsBy resources (· == ·) op

def same (s t : Slot ω) : Bool := s.sameBy resources (· == ·) t

instance : BEq (Slot ω) := ⟨same⟩

/-- Lists of slots are compared slot by slot. -/
theorem listSameBy_eq_beq (ss ts : List (Slot ω)) :
    listSameBy resources (· == ·) ss ts = (ss == ts) := by
  induction ss generalizing ts with
  | nil => cases ts <;> rfl
  | cons s ss ih =>
    cases ts with
    | nil => rfl
    | cons t ts => exact congrArg (s.same t && ·) (ih ts)

def reads (s : Slot ω) : KeySet :=
  .ofList (s.operations.flatMap fun op => (footprint op).reads.toList)

def writes (s : Slot ω) : KeySet :=
  .ofList (s.operations.flatMap fun op => (footprint op).writes.toList)

def footprint (s : Slot ω) : Footprint :=
  s.operations.foldl (fun f op => f.merge (Operation.footprint op)) {}

end Timetable.Slot
