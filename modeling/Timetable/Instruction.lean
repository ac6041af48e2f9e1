import Timetable.Schedule.Snapshot

/-!
# Instructions

An instruction is a named operation. It may hold a schedule of instructions, its body; then it acts
on every resource and key that the body acts on. A body is made before the instruction that holds
it, so no instruction contains itself, and the nesting of every instruction has a finite depth.

* `Instruction`, `Body`: the types, and `Instruction.wrap`, which makes an instruction of a body.
* `Instruction.depth`: how deep an instruction nests.
* `Instruction.same`: equality, which does not look at the order inside slots.
* `Instruction.rename`: the same instruction on other resources.
-/

namespace Timetable

/-- A schedule inside an operation. Of its acceptance rule it keeps the serial number. -/
structure Body (ω : Type) where
  slots : List (Slot ω)
  ruleSerial : Option Nat := none

/-- A named operation. -/
structure Instruction where
  name : String
  resources : List Resource
  reads : KeySet := ∅
  writes : KeySet := ∅
  body : Option (Body Instruction) := none

namespace Instruction

/-! ### Depth -/

mutual

/-- How many instructions stand around the innermost one. -/
def depth : Instruction → Nat
  | ⟨_, _, _, _, none⟩ => 0
  | ⟨_, _, _, _, some ⟨slots, _⟩⟩ => depthOfSlots slots + 1

def depthOfSlots : List (Slot Instruction) → Nat
  | [] => 0
  | ⟨ops, _⟩ :: slots => max (depthOfList ops) (depthOfSlots slots)

def depthOfList : List Instruction → Nat
  | [] => 0
  | op :: ops => max op.depth (depthOfList ops)

end

theorem depth_le_depthOfList {op : Instruction} {ops : List Instruction} (h : op ∈ ops) :
    op.depth ≤ depthOfList ops := by
  induction ops with
  | nil => cases h
  | cons a ops ih =>
    rw [depthOfList]
    rcases List.mem_cons.1 h with rfl | h
    · omega
    · have := ih h
      omega

theorem depth_le_depthOfSlots {op : Instruction} {slot : Slot Instruction}
    {slots : List (Slot Instruction)} (hs : slot ∈ slots) (h : op ∈ slot.operations) :
    op.depth ≤ depthOfSlots slots := by
  induction slots with
  | nil => cases hs
  | cons a slots ih =>
    obtain ⟨ops, index⟩ := a
    rw [depthOfSlots]
    rcases List.mem_cons.1 hs with rfl | hs
    · have : op.depth ≤ depthOfList ops := depth_le_depthOfList h
      omega
    · have := ih hs
      omega

/-- What stands in a body is less deep than the instruction around it. -/
theorem depth_lt_of_body {op inner : Instruction} {b : Body Instruction} {slot : Slot Instruction}
    (hb : op.body = some b) (hs : slot ∈ b.slots) (h : inner ∈ slot.operations) :
    inner.depth < op.depth := by
  obtain ⟨name, rs, reads, writes, body⟩ := op
  obtain ⟨slots, rule⟩ := b
  subst hb
  rw [depth.eq_2]
  exact Nat.lt_succ_of_le (depth_le_depthOfSlots hs h)

/-! ### Equality -/

/-- Whether the bodies are both absent, or agree slot by slot under one acceptance rule. -/
def sameBody (eq : Instruction → Instruction → Bool) :
    Option (Body Instruction) → Option (Body Instruction) → Bool
  | none, none => true
  | some a, some b =>
    a.ruleSerial == b.ruleSerial && Slot.listSameBy Instruction.resources eq a.slots b.slots
  | _, _ => false

/-- Equality as far as the given number of levels goes down. -/
def sameTo : Nat → Instruction → Instruction → Bool
  | 0, _, _ => false
  | levels + 1, a, b =>
    a.name == b.name && a.resources == b.resources && a.reads == b.reads &&
      a.writes == b.writes && sameBody (sameTo levels) a.body b.body

/-- Whether the instructions agree in name, resources, keys and body. No more levels than the first
one has need to be looked at. -/
def same (a b : Instruction) : Bool := sameTo (a.depth + 1) a b

instance : BEq Instruction := ⟨same⟩

/-! ### Instructions as operations -/

instance : Operation Instruction where
  resources := Instruction.resources
  footprint op := ⟨op.reads, op.writes⟩
  body? op := op.body.map Body.slots
  nestsInItself _ := false

instance : RankedNesting Instruction where
  depth := depth
  depth_lt := by
    intro op slots slot inner hb hs h
    obtain ⟨b, hbody, rfl⟩ := Option.map_eq_some_iff.1 hb
    exact depth_lt_of_body hbody hs h

/-- The instruction that holds a body. It acts on every resource and key of the body. -/
def wrap (name : String) (body : Body Instruction) : Instruction where
  name
  resources := (SortedSet.ofList (body.slots.flatMap Slot.resourcesInUse)).toList
  reads := .ofList (body.slots.flatMap fun slot => slot.reads.toList)
  writes := .ofList (body.slots.flatMap fun slot => slot.writes.toList)
  body := some body

def wrapSnapshot (name : String) (f : Snapshot Instruction) : Instruction :=
  wrap name ⟨f.schedule.slots, f.schedule.acceptance.map Acceptance.serial⟩

/-- The instruction reading one more key. -/
def reading (op : Instruction) (k : Key) : Instruction := { op with reads := op.reads.insert k }

/-- The instruction writing one more key. -/
def writing (op : Instruction) (k : Key) : Instruction := { op with writes := op.writes.insert k }

/-- Name and resources, as in `cz(q0, q1)`. -/
def render (op : Instruction) : String :=
  op.name ++ "(" ++ Text.join ", " (op.resources.map Resource.render) ++ ")"

/-! ### Renaming -/

mutual

/-- The instruction on the resources `f r` instead of `r`. The body is renamed as well; where the
renaming makes two operations of one of its slots overlap, it stays as it is. -/
def rename (f : Resource → Resource) : Instruction → Instruction
  | ⟨name, rs, reads, writes, body⟩ => ⟨name, rs.map f, reads, writes, renameBody f body⟩

/-- The renamed body. A renamed body is under no acceptance rule. -/
def renameBody (f : Resource → Resource) :
    Option (Body Instruction) → Option (Body Instruction)
  | none => none
  | some ⟨slots, rule⟩ =>
    match renameSlots f slots with
    | .ok renamed => some ⟨renamed, none⟩
    | .error _ => some ⟨slots, rule⟩

def renameSlots (f : Resource → Resource) :
    List (Slot Instruction) → Except Fault (List (Slot Instruction))
  | [] => .ok []
  | ⟨ops, _⟩ :: slots => do
    let slot ← Slot.ofOperations (renameList f ops)
    let later ← renameSlots f slots
    return slot :: later

def renameList (f : Resource → Resource) : List Instruction → List Instruction
  | [] => []
  | op :: ops => op.rename f :: renameList f ops

end

end Instruction

/-- The schedule on the resources `f r` instead of `r`. It is refused where the renaming makes two
operations of one slot overlap. -/
def Schedule.rename (s : Schedule Instruction) (f : Resource → Resource) :
    Except Fault (Schedule Instruction) := do
  let slots ← Instruction.renameSlots f s.slots
  return { s with slots }

end Timetable
