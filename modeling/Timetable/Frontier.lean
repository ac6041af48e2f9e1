import Timetable.Slot

/-!
# Frontiers and the search for slots

A frontier draws a line through a schedule: for some resources it gives the index of the first slot
behind the line. The searches answer which slot uses some of the resources next, or last before.

Indices are words of 64 bits. Where a search subtracts them it takes them as signed numbers, so an
index in the upper half counts as negative. The differences themselves are taken here without a
bound. They are signed words, except for indices at the very beginning of the upper half: a search
forward from `2 ^ 63` or from at most as many behind it as there are slots, and a search back from
less than as many behind it without a distance. A build that checks its sums stops there. Of the
others the search back answers what it does here, and so does the search forward without a distance;
with one it looks at all slots.

* `nextUse?`, `nextUses`: the next slots on some resources, without a limit.
* `nextSlot`, `prevSlot`: the next and the last slot within a limited distance.
-/

namespace Timetable

/-- For some resources, the first slot behind a line through the schedule. -/
abbrev Frontier := SortedMap Resource Nat

variable {ω : Type}

/-- The first slot from `start` on that touches the resources. -/
def nextUse? (slots : List (Slot ω)) (rs : List Resource) (start : Nat) : Option Nat :=
  ((slots.drop start).findIdx? fun slot => slot.touches rs).map (· + start)

/-- The first slot from `start` on for each resource by itself, or the length if there is none. -/
def nextUses (slots : List (Slot ω)) (rs : List Resource) (start : Nat) : Frontier :=
  .ofList (rs.map fun r => (r, (nextUse? slots [r] start).getD slots.length))

/-- A 64-bit index as a signed number. -/
def signed (index : Nat) : Int := Int.bmod index (Nat.pow 2 64)

/-- The indices of the slots in the window `[lo, hi)` that touch the resources, in order. -/
def touchingIn (slots : List (Slot ω)) (rs : List Resource) (lo hi : Int) : List Nat :=
  (List.range slots.length).filter fun (i : Nat) =>
    lo ≤ (i : Int) && (i : Int) < hi && slots[i]?.any fun slot => slot.touches rs

/-- The first slot that touches the resources at `start` or less than `distance` slots behind it. -/
def nextSlot (slots : List (Slot ω)) (rs : List Resource) (start : Nat) (distance : Option Int) :
    Except Fault (Option Nat) := do
  let remaining := slots.length - signed start
  let reach ←
    match distance with
    | none => pure remaining
    | some d => if d < 0 then throw (.negativeDistance d) else pure (min d remaining)
  return (touchingIn slots rs (signed start) (signed start + reach)).head?

/-- The last slot before `stop` that touches the resources, at most `distance` slots before it.
Without `stop` the search begins at the end; slots beyond the end use up the distance. -/
def prevSlot (slots : List (Slot ω)) (rs : List Resource) (stop : Option Nat)
    (distance : Option Int) : Except Fault (Option Nat) := do
  let length : Int := slots.length
  let stop := (stop.map signed).getD length
  let reach ←
    match distance with
    | none => pure length
    | some d => if d < 0 then throw (.negativeDistance d) else pure (min d stop)
  let beyond := max 0 (stop - length)
  let stop := stop - beyond
  let reach := reach - beyond
  return if reach ≤ 0 then none else (touchingIn slots rs (stop - reach) stop).getLast?

end Timetable
