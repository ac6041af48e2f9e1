import Timetable.Slot

/-!
# Bundles

A bundle is what can be put into a schedule at once: a bare operation, a finished slot, or a
sequence of bundles. The order of a bundle is the order of its leaves.

* `Bundle.items`: the leaves in order.
* `Bundle.operations`: the operations in order, those of slots included.
-/

namespace Timetable

/-- What can be put into a schedule at once. -/
inductive Bundle (ω : Type) where
  /-- An operation that goes where the strategy puts it. -/
  | operation (op : ω)
  /-- A slot that goes in as it is. -/
  | slot (s : Slot ω)
  /-- Bundles that go in one after the other. -/
  | sequence (parts : List (Bundle ω))

/-- A leaf of a bundle. -/
inductive Item (ω : Type) where
  | operation (op : ω)
  | slot (s : Slot ω)

def Item.operations {ω : Type} : Item ω → List ω
  | .operation op => [op]
  | .slot s => s.operations

namespace Bundle

variable {ω : Type}

def empty : Bundle ω := .sequence []

def ofList (ops : List ω) : Bundle ω := .sequence (ops.map .operation)

/-- The word for what the bundle is at its root. -/
def kind : Bundle ω → String
  | .operation _ => "operation"
  | .slot _ => "time slot"
  | .sequence _ => "sequence"

mutual

/-- The leaves from left to right. -/
def items : Bundle ω → List (Item ω)
  | .operation op => [.operation op]
  | .slot s => [.slot s]
  | .sequence parts => itemsOfParts parts

def itemsOfParts : List (Bundle ω) → List (Item ω)
  | [] => []
  | part :: parts => part.items ++ itemsOfParts parts

end

theorem itemsOfParts_eq_flatMap (parts : List (Bundle ω)) :
    itemsOfParts parts = parts.flatMap items := by
  induction parts with
  | nil => rfl
  | cons part parts ih => rw [itemsOfParts, ih, List.flatMap_cons]

theorem items_ofList (ops : List ω) : (ofList ops).items = ops.map Item.operation := by
  rw [ofList, items, itemsOfParts_eq_flatMap, List.flatMap_map, List.map_eq_flatMap]
  rfl

/-- The operations from left to right, those of slots in their place. -/
def operations (b : Bundle ω) : List ω := b.items.flatMap Item.operations

/-- The slot that the bundle is. -/
def asSlot : Bundle ω → Except Fault (Slot ω)
  | .slot s => .ok s
  | other => .error (.notASlot other.kind)

theorem operations_sequence (parts : List (Bundle ω)) :
    (sequence parts).operations = parts.flatMap operations := by
  rw [operations, items, itemsOfParts_eq_flatMap, List.flatMap_assoc]
  rfl

theorem operations_ofList (ops : List ω) : (ofList ops).operations = ops := by
  rw [operations, items_ofList, List.flatMap_map]
  exact List.flatMap_singleton' ops

variable [Operation ω]

mutual

/-- Whether the bundles have the same shape and equal leaves. -/
def same : Bundle ω → Bundle ω → Bool
  | .operation a, .operation b => a == b
  | .slot a, .slot b => a == b
  | .sequence as, .sequence bs => sameParts as bs
  | _, _ => false

def sameParts : List (Bundle ω) → List (Bundle ω) → Bool
  | [], [] => true
  | a :: as, b :: bs => a.same b && sameParts as bs
  | _, _ => false

end

instance : BEq (Bundle ω) := ⟨same⟩

end Bundle

end Timetable
