import Timetable.Text.Decimal

/-!
# The range of 64-bit floating point

A decimal number can be too large for 64-bit floating point. Formats that hold such numbers refuse
it, so that its size has to be known although its value is not. There are two ways to find the size.

The exact way rounds once. The quick way takes the digits in front for as long as they make a number
of 64 bits, and rounds three times: that number, the power of ten behind it, and their product. Next
to the greatest float the two ways can disagree.

* `roundsToInfinity`: whether a decimal number is too large, found the exact way.
* `roundToFloat`: a natural number with its first 53 binary places, rounded.
* `fillWord`, `productIsInfinite`: the two parts of the quick way.
-/

namespace Timetable.Text

/-- The least number that rounds to infinity: half a step above the greatest finite one. -/
def infinityBound : Nat := Nat.pow 2 1024 - Nat.pow 2 970

/-! ### The exact way -/

/-- Whether `digits * 10 ^ shift` rounds to infinity. Only numbers with 309 or 310 places before the
point have to be worked out. -/
def roundsToInfinity (digits : Nat) (shift : Int) : Bool :=
  let places := (Decimal.ofNat digits).length + shift
  if digits = 0 || places < 309 then false
  else if places > 310 then true
  else if 0 ≤ shift then infinityBound ≤ digits * Nat.pow 10 shift.toNat
  else infinityBound * Nat.pow 10 (-shift).toNat ≤ digits

/-! ### The quick way -/

/-- The nearest number that is told by its first 53 binary places; of two that are equally near, the
one whose last of these places is zero. -/
def roundToFloat (n : Nat) : Nat :=
  let unit := Nat.pow 2 (n.log2 - 52)
  let twiceRest := 2 * (n % unit)
  if unit < twiceRest || (twiceRest = unit && n / unit % 2 = 1) then (n / unit + 1) * unit
  else n / unit * unit

/-- Puts digits behind those of a number for as long as it stays a number of 64 bits. The answer is
the number and the digits that are left. -/
def fillWord (n : Nat) : List Char → Nat × List Char
  | [] => (n, [])
  | c :: cs =>
    let longer := 10 * n + (c.toNat - 48)
    if longer < Nat.pow 2 64 then fillWord longer cs else (n, c :: cs)

/-- Whether `n * 10 ^ shift` is infinite where both factors are rounded, and their product as well.
A power of ten above the 308th is infinite by itself. -/
def productIsInfinite (n : Nat) (shift : Int) : Bool :=
  if n = 0 || shift < 0 then false
  else if shift > 308 then true
  else infinityBound ≤ roundToFloat n * roundToFloat (Nat.pow 10 shift.toNat)

/-- A number of no more than 53 binary places is not changed. -/
theorem roundToFloat_of_lt {n : Nat} (h : n < Nat.pow 2 53) : roundToFloat n = n := by
  have hlog : n.log2 - 52 = 0 := by
    by_cases hn : n = 0
    · subst hn
      rfl
    · have := (Nat.log2_lt hn).2 h
      omega
  simp [roundToFloat, hlog, Nat.mod_one]

/-- The number stays one of 64 bits. -/
theorem fillWord_lt {n : Nat} (h : n < Nat.pow 2 64) (cs : List Char) :
    (fillWord n cs).1 < Nat.pow 2 64 := by
  induction cs generalizing n with
  | nil => exact h
  | cons c cs ih =>
    rw [fillWord]
    split
    · rename_i hlonger
      exact ih hlonger
    · exact h

end Timetable.Text
