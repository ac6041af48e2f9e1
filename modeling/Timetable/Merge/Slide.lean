import Timetable.Schedule

/-!
# Sliding one schedule into another

An incoming schedule starts behind an accumulated one and slides back into it, until two operations
on one resource would share a slot. Both are scanned from the seam at once. What claims a resource
first, seen from the seam, decides how far the two can be pushed together there: a resource used `k`
slots before the seam and `t` slots behind it allows a slide of `t + k`.

* `slideLimit`: how far the alignment lets the incoming schedule slide.
* `slideBound`: how far it slides.
-/

namespace Timetable

/-- Which schedule claims a resource first from the seam, and at what distance from the seam. -/
inductive Claim where
  | accumulated (distance : Nat)
  | incoming (distance : Nat)
  deriving DecidableEq

/-- The claims met so far, and the least slide at which two of them collide. -/
structure SlideScan where
  claims : SortedMap Resource Claim
  bound : Nat

namespace SlideScan

/-- Meets a use of a resource by the incoming schedule, `t` slots behind the seam. -/
def meetIncoming (t : Nat) (s : SlideScan) (r : Resource) : SlideScan :=
  match s.claims.get? r with
  | none => { s with claims := s.claims.insert r (.incoming t) }
  | some (.incoming _) => s
  | some (.accumulated k) => { s with bound := min s.bound (t + k) }

/-- Meets a use of a resource by the accumulated schedule, `t` slots before its last one. -/
def meetAccumulated (t : Nat) (s : SlideScan) (r : Resource) : SlideScan :=
  match s.claims.get? r with
  | none => { s with claims := s.claims.insert r (.accumulated t) }
  | some (.accumulated _) => s
  | some (.incoming k) => { s with bound := min s.bound (t + k) }

variable {ω : Type} [Operation ω]

/-- The resources of the operations of a slot that may be missing. -/
def usesOf (slot : Option (Slot ω)) : List Resource :=
  (slot.map Slot.operations).getD [] |>.flatMap resources

/-- Scans the two slots at distance `t` from the seam, unless the bound has been reached. -/
def step (accumulated incoming : List (Slot ω)) (s : SlideScan) (t : Nat) : SlideScan :=
  if t < s.bound then
    let s := (usesOf incoming[t]?).foldl (meetIncoming t) s
    (usesOf accumulated.reverse[t]?).foldl (meetAccumulated t) s
  else s

end SlideScan

variable {ω : Type} [Operation ω]

/-- How far the alignment lets a schedule slide: to the start of the accumulated schedule, until the
ends meet, or whichever comes first. -/
def slideLimit (accumulated incoming : List (Slot ω)) : Alignment → Nat
  | .left => accumulated.length
  | .right => incoming.length
  | .first => min accumulated.length incoming.length

/-- How far the incoming schedule slides into the accumulated one. -/
def slideBound (accumulated incoming : List (Slot ω)) (align : Alignment) : Nat :=
  let limit := slideLimit accumulated incoming align
  ((List.range limit).foldl (SlideScan.step accumulated incoming) ⟨∅, limit⟩).bound

end Timetable
