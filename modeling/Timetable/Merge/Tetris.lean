import Timetable.Merge.Slide

/-!
# Concatenating schedules closely

Schedules are put one after the other, each one slid back into those before it as far as their
resources and the alignment allow. The result is built in a buffer with room on both sides of the
first schedule, for a schedule that is aligned by its end may come to reach past the start.

* `TetrisBuffer`: the buffer with the window that holds the result so far.
* `tetrisConcat`: the slots of the result.
-/

namespace Timetable

/-- A buffer of slots, and the window of it that holds the result so far. -/
structure TetrisBuffer (ω : Type) where
  slots : List (Slot ω)
  /-- The index of the first slot of the window. -/
  offset : Nat
  /-- The number of slots of the window. -/
  length : Nat

namespace TetrisBuffer

variable {ω : Type}

def window (b : TetrisBuffer ω) : List (Slot ω) := (b.slots.drop b.offset).take b.length

/-- A buffer that holds the slots, with `pad` empty slots on either side. -/
def ofSlots (slots : List (Slot ω)) (pad : Nat) : TetrisBuffer ω :=
  ⟨List.replicate pad .empty ++ slots ++ List.replicate pad .empty, pad, slots.length⟩

variable [Operation ω]

/-- Writes slots over those of the buffer from index `position` on. Shared resources collide; the
collision is counted from `origin`. -/
def overlay (origin : Nat) : Nat → List (Slot ω) → List (Slot ω) →
    Except Fault (List (Slot ω))
  | _, [], buffer => .ok buffer
  | position, slot :: slots, buffer =>
    match buffer[position]? with
    | none => .error (.noSlot position buffer.length)
    | some there => do
      let both ← (there.disjointUnion slot).mapError (Fault.inMerge (position - origin))
      overlay origin (position + 1) slots (buffer.set position both)

/-- Slides a schedule into the window from its end. -/
def push (b : TetrisBuffer ω) (align : Alignment) (incoming : List (Slot ω)) :
    Except Fault (TetrisBuffer ω) := do
  let slide := slideBound b.window incoming align
  let position := b.offset + b.length - slide
  let offset := min b.offset position
  let slots ← overlay offset position incoming b.slots
  let length := max (max b.length incoming.length) (b.length + incoming.length - slide)
  return ⟨slots, offset, length⟩

def pushAll (b : TetrisBuffer ω) (align : Alignment) :
    List (List (Slot ω)) → Except Fault (TetrisBuffer ω)
  | [] => .ok b
  | incoming :: rest => do
    let b' ← b.push align incoming
    b'.pushAll align rest

end TetrisBuffer

/-- The schedules one after the other, each as close to those before it as it can be. -/
def tetrisConcat {ω : Type} [Operation ω] (schedules : List (List (Slot ω))) (align : Alignment) :
    Except Fault (List (Slot ω)) :=
  match schedules with
  | [] => .ok []
  | first :: rest => do
    let pad := rest.flatten.length
    let buffer ← (TetrisBuffer.ofSlots first pad).pushAll align rest
    return buffer.window

end Timetable
