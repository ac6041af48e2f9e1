import Timetable.Bundle
import Timetable.Strategy

/-!
# Schedules

A schedule is a list of slots in the order of time. It may carry an acceptance rule, a veto on
putting an operation into a slot, which is consulted on top of the check for shared resources.
Rules are compared by identity: a rule is equal to itself alone.

* `Schedule`: slots and acceptance rule.
* `Outcome`: what an edit answers, and the schedule that it leaves.
* `Schedule.setSlot`, `Schedule.splice`, `Schedule.removeSlot`: edits of single slots.
* `Schedule.slice`, `Schedule.projectRange`, `Schedule.cycled`, `Schedule.concat`,
  `Schedule.clearTouching`: schedules made from schedules.
-/

namespace Timetable

/-- A rule that may keep an operation out of a slot, known by a serial number. -/
structure Acceptance (ω : Type) where
  serial : Nat
  accepts : ω → Slot ω → Bool

def Acceptance.same {ω : Type} (a b : Acceptance ω) : Bool := a.serial == b.serial

/-- Slots in the order of time. -/
structure Schedule (ω : Type) where
  slots : List (Slot ω) := []
  acceptance : Option (Acceptance ω) := none

/-- The schedule that an edit leaves, and its answer. -/
structure Outcome (ω α : Type) where
  left : Schedule ω
  answer : Except Fault α

namespace Schedule

variable {ω : Type}

instance : Inhabited (Schedule ω) := ⟨{}⟩

def ofSlots (slots : List (Slot ω)) : Schedule ω := { slots }

def withAcceptance (s : Schedule ω) (rule : Acceptance ω) : Schedule ω :=
  { s with acceptance := some rule }

def length (s : Schedule ω) : Nat := s.slots.length

def isEmpty (s : Schedule ω) : Bool := s.slots.isEmpty

def operations (s : Schedule ω) : List ω := s.slots.flatMap Slot.operations

/-- The operations in the same order, each with the index of its slot. -/
def indexedOperations (slots : List (Slot ω)) : List (Nat × ω) :=
  slots.zipIdx.flatMap fun e => e.1.operations.map fun op => (e.2, op)

def resourcesInUse (s : Schedule ω) : SortedSet Resource :=
  .ofList (s.slots.flatMap Slot.resourcesInUse)

def operationAt? (s : Schedule ω) (r : Resource) (index : Nat) : Option ω :=
  s.slots[index]?.bind fun slot => slot.operationAt? r

/-- The first index and the index after the last one, cut down to the length. -/
def clamp (s : Schedule ω) (start stop : Nat) : Nat × Nat :=
  let stop := min stop s.length
  (min start stop, stop)

def slotsIn (s : Schedule ω) (start stop : Nat) : List (Slot ω) :=
  let (start, stop) := s.clamp start stop
  (s.slots.take stop).drop start

def slice (s : Schedule ω) (start stop : Nat) : Schedule ω :=
  { s with slots := s.slotsIn start stop }

def cycled (s : Schedule ω) (times : Nat) : Schedule ω :=
  { s with slots := if s.slots.isEmpty then [] else (List.replicate times s.slots).flatten }

def concat (s : Schedule ω) (slots : List (Slot ω)) : Schedule ω :=
  { s with slots := s.slots ++ slots }

variable [Operation ω]

/-- Whether the schedules carry one acceptance rule, or none, and their slots are equal. -/
def same (s t : Schedule ω) : Bool :=
  sameRule s.acceptance t.acceptance && s.slots == t.slots
where
  /-- Whether both rules are absent or one rule. -/
  sameRule : Option (Acceptance ω) → Option (Acceptance ω) → Bool
    | none, none => true
    | some a, some b => a.same b
    | _, _ => false

instance : BEq (Schedule ω) := ⟨same⟩

/-- The part of one slot that acts on the resources. -/
def project (s : Schedule ω) (index : Nat) (rs : List Resource) : Except Fault (Slot ω) :=
  match s.slots[index]? with
  | some slot => .ok (slot.project rs)
  | none => .error (.noSlot index s.length)

/-- A range of slots, cut down to the operations that act on the resources. -/
def projectRange (s : Schedule ω) (start stop : Nat) (rs : List Resource) : Schedule ω :=
  { s with slots := (s.slotsIn start stop).map fun slot => slot.project rs }

/-- The schedule without the operations on the resources in the slots of the indices. -/
def clearTouching (s : Schedule ω) (rs : List Resource) (indices : List Nat) : Schedule ω :=
  let clear (slots : List (Slot ω)) (i : Nat) := slots.modify i fun t => t.withoutTouching rs
  { s with slots := indices.foldl clear s.slots }

/-- Refuses a slot with an operation that nests cyclically. -/
def checkSlot (slot : Slot ω) : Except Fault Unit :=
  if slot.operations.any nestsInItself then .error .cyclicNesting else .ok ()

def checkSlots : List (Slot ω) → Except Fault Unit
  | [] => .ok ()
  | slot :: slots => do
    checkSlot slot
    checkSlots slots

/-- Another slot instead of the one of the index. -/
def setSlot (s : Schedule ω) (index : Nat) (slot : Slot ω) : Outcome ω Unit :=
  if index < s.length then
    match checkSlot slot with
    | .ok () => ⟨{ s with slots := s.slots.set index slot }, .ok ()⟩
    | .error e => ⟨s, .error e⟩
  else ⟨s, .error (.noSlot index s.length)⟩

/-- Other slots instead of those from `start` up to but without `stop`. -/
def splice (s : Schedule ω) (start stop : Nat) (bundles : List (Bundle ω)) : Outcome ω Unit :=
  if start > stop || stop > s.length then ⟨s, .error (.badRange start stop s.length)⟩
  else
    match bundles.mapM Bundle.asSlot with
    | .error e => ⟨s, .error e⟩
    | .ok slots =>
      match checkSlots slots with
      | .error e => ⟨s, .error e⟩
      | .ok () => ⟨{ s with slots := s.slots.take start ++ slots ++ s.slots.drop stop }, .ok ()⟩

/-- The schedule without the slot of the index. The answer is that slot. -/
def removeSlot (s : Schedule ω) (index : Nat) : Outcome ω (Slot ω) :=
  match s.slots[index]? with
  | some slot => ⟨{ s with slots := s.slots.eraseIdx index }, .ok slot⟩
  | none => ⟨s, .error (.noSlot index s.length)⟩

end Schedule

end Timetable
