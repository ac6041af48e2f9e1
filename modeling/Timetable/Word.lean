import Timetable.Fault

/-!
# Sums of indices

Indices are words of 64 bits, and a sum of two of them may be no word. What happens then is settled
when the program is built: with checks it stops there, without them it goes on with what is left of
the sum in a word.

* `Build`: with or without checks.
* `word`: what is left of a number in a word.
* `Build.stops`: whether a build stops at a sum.
-/

namespace Timetable

/-- What a build makes of a sum that is no word. -/
inductive Build where
  /-- The program stops. -/
  | checked
  /-- The program goes on with the remainder. -/
  | wrapping
  deriving DecidableEq, Repr

/-- What is left of a number in a word of 64 bits. -/
def word (n : Nat) : Nat := n % Nat.pow 2 64

theorem word_of_lt {n : Nat} (h : n < Nat.pow 2 64) : word n = n := Nat.mod_eq_of_lt h

namespace Build

def stops (build : Build) (sum : Nat) : Bool := build == .checked && Nat.pow 2 64 ≤ sum

theorem stops_eq_true_iff {build : Build} {sum : Nat} :
    build.stops sum = true ↔ build = .checked ∧ Nat.pow 2 64 ≤ sum := by
  rw [stops, Bool.and_eq_true, beq_iff_eq, decide_eq_true_iff]

/-- No build stops at a word. -/
theorem stops_of_lt {build : Build} {sum : Nat} (h : sum < Nat.pow 2 64) : build.stops sum = false := by
  rw [Bool.eq_false_iff, ne_eq, stops_eq_true_iff]
  exact fun hstop => Nat.not_le.2 h hstop.2

/-- A checked build goes on with words alone. -/
theorem lt_of_checked_stops {sum : Nat} (h : Build.checked.stops sum = false) : sum < Nat.pow 2 64 := by
  refine Nat.lt_of_not_le fun hle => ?_
  rw [stops_eq_true_iff.2 ⟨rfl, hle⟩] at h
  cases h

end Build

end Timetable
