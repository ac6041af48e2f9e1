/-!
# Hexadecimal digits

* `hexDigit?`: the value of one digit.
* `readHex`: the number that so many digits at the front of a text denote.
-/

namespace Timetable.Text

def hexDigit? (c : Char) : Option Nat :=
  if c.isDigit then some (c.toNat - 48)
  else if 'a' ≤ c && c ≤ 'f' then some (c.toNat - 87)
  else if 'A' ≤ c && c ≤ 'F' then some (c.toNat - 55)
  else none

/-- The number behind `value` that the digits spell, or nothing where one is no digit. -/
def hexValue? (value : Nat) : List Char → Option Nat
  | [] => some value
  | c :: cs => do
    let digit ← hexDigit? c
    hexValue? (value * 16 + digit) cs

/-- The number of `count` digits at the front of a text, and what is left. -/
def readHex (count : Nat) (cs : List Char) : Option (Nat × List Char) :=
  if count ≤ cs.length then (hexValue? 0 (cs.take count)).map fun n => (n, cs.drop count)
  else none

theorem hexDigit?_lt {c : Char} {n : Nat} (h : hexDigit? c = some n) : n < 16 := by
  simp only [hexDigit?, Char.isDigit, Bool.and_eq_true, decide_eq_true_eq, Char.le_def,
    UInt32.le_iff_toNat_le, ge_iff_le, Char.toNat] at h
  split at h
  · rename_i hd
    have : c.val.toNat ≤ 57 := hd.2
    simp only [Option.some.injEq] at h
    omega
  · split at h
    · rename_i hd
      have : c.val.toNat ≤ 102 := hd.2
      simp only [Option.some.injEq] at h
      omega
    · split at h
      · rename_i hd
        have : c.val.toNat ≤ 70 := hd.2
        simp only [Option.some.injEq] at h
        omega
      · simp at h

end Timetable.Text
