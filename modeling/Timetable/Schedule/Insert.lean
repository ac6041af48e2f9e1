import Timetable.Schedule

/-!
# Inserting bundles

A cursor walks behind what is inserted. A finished slot goes in at the cursor. A bare operation goes
where the strategy puts it: into a fresh slot, into the slot before the cursor, or into the
earliest slot that it reaches by moving back. On its way back an operation may cross slots that do
not take it, but neither a slot on its resources nor a slot that is ordered against it by its keys.

* `Schedule.fits`: whether a slot takes an operation.
* `Schedule.earliestSlot`: how far back an operation can move.
* `Schedule.insert`, `Schedule.append`: insertion, with the cursor behind it as the answer.
* `Schedule.ofBundle`: the schedule of a bundle alone.
-/

namespace Timetable

/-- The strategy for what follows the first operation. -/
def Strategy.afterOperation : Strategy → Strategy
  | .newThenInline => .inline
  | other => other

namespace Schedule

variable {ω : Type} [Operation ω]

/-! ### What can be placed at all -/

/-- The first resource in the list that stands among those before it, or is one of `seen`. -/
def firstRepeated? (seen : List Resource) : List Resource → Option Resource
  | [] => none
  | r :: rs => if seen.contains r then some r else firstRepeated? (r :: seen) rs

/-- Refuses an operation that names a resource twice or nests cyclically. -/
def checkOperation (op : ω) : Except Fault Unit :=
  match firstRepeated? [] (resources op) with
  | some r => .error (.overlap r)
  | none => if nestsInItself op then .error .cyclicNesting else .ok ()

def checkOperations : List ω → Except Fault Unit
  | [] => .ok ()
  | op :: ops => do
    checkOperation op
    checkOperations ops

/-- Checks a leaf. The resources of a finished slot have been checked when it was built. -/
def checkItem : Item ω → Except Fault Unit
  | .operation op => checkOperation op
  | .slot slot => checkSlot slot

def checkItems : List (Item ω) → Except Fault Unit
  | [] => .ok ()
  | item :: items => do
    checkItem item
    checkItems items

/-! ### Where an operation goes -/

/-- Whether the acceptance rule, if there is one, lets the operation join the slot. -/
def accepts (s : Schedule ω) (op : ω) (slot : Slot ω) : Bool :=
  match s.acceptance with
  | none => true
  | some rule => rule.accepts op slot

/-- Whether the operation may join the slot of the index. Beyond the end there is always room. -/
def fits (s : Schedule ω) (index : Nat) (op : ω) : Bool :=
  match s.slots[index]? with
  | none => true
  | some slot => !slot.touches (resources op) && s.accepts op slot

/-- Whether the operation may not cross the slot. -/
def holdsBack (slot : Slot ω) (op : ω) : Bool :=
  slot.touches (resources op) || (footprint op).orderedAgainst slot.footprint

/-- The earliest slot that the operation reaches by moving back over the slots below the given
index; `best` is the earliest one found so far. -/
def earliestSlot (s : Schedule ω) (op : ω) : Nat → Nat → Nat
  | 0, best => best
  | k + 1, best =>
    match s.slots[k]? with
    | none => best
    | some slot =>
      if holdsBack slot op then best
      else s.earliestSlot op k (if s.fits k op then k else best)

def openSlot (s : Schedule ω) (k : Nat) : Schedule ω :=
  { s with slots := s.slots.insertIdx k Slot.empty }

/-- The slot just before the cursor, or a fresh one at the cursor. -/
def inlineSlot (s : Schedule ω) (k : Nat) (op : ω) : Nat × Schedule ω :=
  if 0 < k && k - 1 < s.length && s.fits (k - 1) op then (k - 1, s) else (k, s.openSlot k)

/-- The slot for an operation with the cursor at `k`, and the schedule with that slot opened. -/
def pickSlot (s : Schedule ω) (k : Nat) (op : ω) : Strategy → Nat × Schedule ω
  | .new | .newThenInline => (k, s.openSlot k)
  | .inline => s.inlineSlot k op
  | .earliest => if s.fits k op then (s.earliestSlot op k k, s) else s.inlineSlot k op

def padTo (s : Schedule ω) (length : Nat) : Schedule ω :=
  { s with slots := s.slots ++ List.replicate (length - s.length) Slot.empty }

def pushAt (s : Schedule ω) (index : Nat) (op : ω) : Except Fault (Schedule ω) :=
  match s.slots[index]? with
  | none => .error (.noSlot index s.length)
  | some slot => do
    let slot' ← slot.push op
    return { s with slots := s.slots.set index slot' }

/-! ### Insertion -/

/-- Inserts leaves with the cursor at `k`. The answer is the cursor behind them. -/
def insertItems (s : Schedule ω) (k : Nat) (strategy : Strategy) :
    List (Item ω) → Outcome ω Nat
  | [] => ⟨s, .ok k⟩
  | .slot slot :: items =>
    insertItems { s with slots := s.slots.insertIdx k slot } (k + 1) strategy items
  | .operation op :: items =>
    let (p, picked) := s.pickSlot k op strategy
    let roomy := picked.padTo (p + 1)
    match roomy.pushAt p op with
    | .error e => ⟨roomy, .error e⟩
    | .ok s' => insertItems s' (max k (p + 1)) strategy.afterOperation items

/-- Inserts a bundle at the index, or at the end where the index lies beyond it. The answer is the
index just behind what was inserted. -/
def insert (s : Schedule ω) (index : Nat) (bundle : Bundle ω) (strategy : Strategy) :
    Outcome ω Nat :=
  match checkItems bundle.items with
  | .error e => ⟨s, .error e⟩
  | .ok () => s.insertItems (min index s.length) strategy bundle.items

def append (s : Schedule ω) (bundle : Bundle ω) (strategy : Strategy) : Outcome ω Nat :=
  s.insert s.length bundle strategy

def ofBundle (bundle : Bundle ω) (strategy : Strategy) : Except Fault (Schedule ω) :=
  let outcome := ({} : Schedule ω).append bundle strategy
  outcome.answer.map fun _ => outcome.left

end Schedule

end Timetable
