/-!
# Whole numbers in decimal

Numbers are written with their shortest run of ASCII digits and a minus sign where negative. A
reader takes any run of digits, leading zeros included, and a plus sign in front; only the signed
reader takes a minus sign.

* `ofNat`, `ofInt`: the written form as characters; `natText`, `intText`: the same as a text.
* `readNat?`, `readInt?`: the number that a text denotes, or nothing.
* `readUnsigned?`, `readSigned?`: the same with a limit on the number.
* `readNat?_ofNat`, `readUnsigned?_ofNat`, `readInt?_ofInt`, `readSigned?_ofInt`: reading takes back
  what writing gives.
* `readNat?_of_mem`: a character that keeps a text from being a number.
* `isDigit_or_minus`: the characters of a written integer.
-/

namespace Timetable.Text.Decimal

def ofNat (n : Nat) : List Char := Nat.toDigits 10 n

/-- The digits of an integer, after a minus sign where it is negative. -/
def ofInt : Int → List Char
  | .ofNat n => ofNat n
  | .negSucc n => '-' :: ofNat (n + 1)

def natText (n : Nat) : String := String.ofList (ofNat n)

def intText (i : Int) : String := String.ofList (ofInt i)

/-- The number that a non-empty run of digits denotes. -/
def readDigits? (cs : List Char) : Option Nat :=
  if cs.isEmpty || !cs.all Char.isDigit then none else some (Nat.ofDigitChars 10 cs 0)

/-- The natural number that a text denotes: digits, perhaps after a plus sign. -/
def readNat? : List Char → Option Nat
  | '+' :: cs => readDigits? cs
  | cs => readDigits? cs

/-- The integer that a text denotes: digits, perhaps after a sign. -/
def readInt? : List Char → Option Int
  | '-' :: cs => (readDigits? cs).map fun n => -(n : Int)
  | cs => (readNat? cs).map Int.ofNat

/-- Whether an integer can be told by so many bits, of which one tells the sign. -/
def fitsSigned (bits : Nat) (i : Int) : Bool :=
  -(Nat.pow 2 (bits - 1) : Int) ≤ i && i < (Nat.pow 2 (bits - 1) : Int)

/-- The integer that a text denotes, if so many bits can tell it. -/
def readSigned? (bits : Nat) (cs : List Char) : Option Int := (readInt? cs).filter (fitsSigned bits)

/-- The natural number that a text denotes, if so many bits can tell it. -/
def readUnsigned? (bits : Nat) (cs : List Char) : Option Nat :=
  (readNat? cs).filter fun n => n < Nat.pow 2 bits

theorem isDigit_of_mem_ofNat {n : Nat} {c : Char} (h : c ∈ ofNat n) : c.isDigit = true :=
  Nat.isDigit_of_mem_toDigits (by decide) (by decide) h

theorem ofNat_ne_nil (n : Nat) : ofNat n ≠ [] := Nat.toDigits_ne_nil

theorem readDigits?_ofNat (n : Nat) : readDigits? (ofNat n) = some n := by
  have hall : (ofNat n).all Char.isDigit = true := List.all_eq_true.2 fun _ => isDigit_of_mem_ofNat
  have hne : (ofNat n).isEmpty = false := List.isEmpty_eq_false_iff.2 (ofNat_ne_nil n)
  rw [readDigits?, hall, hne]
  exact congrArg some (Nat.ofDigitChars_toDigits (by decide) (by decide))

/-- A text that starts with a digit is read as digits. -/
theorem readNat?_of_head {c : Char} {cs : List Char} (h : c.isDigit = true) :
    readNat? (c :: cs) = readDigits? (c :: cs) := by
  rw [readNat?]
  rintro r ⟨⟩
  exact absurd h (by decide)

theorem readNat?_ofNat (n : Nat) : readNat? (ofNat n) = some n := by
  rcases hc : ofNat n with _ | ⟨c, cs⟩
  · exact absurd hc (ofNat_ne_nil n)
  · rw [readNat?_of_head (isDigit_of_mem_ofNat (hc ▸ List.mem_cons_self)), ← hc, readDigits?_ofNat]

theorem readUnsigned?_ofNat {bits n : Nat} (h : n < Nat.pow 2 bits) :
    readUnsigned? bits (ofNat n) = some n := by
  rw [readUnsigned?, readNat?_ofNat]
  exact Option.filter_eq_some_iff.2 ⟨rfl, decide_eq_true h⟩

theorem readDigits?_of_mem {c : Char} {cs : List Char} (h : c ∈ cs) (hc : c.isDigit = false) :
    readDigits? cs = none := by
  have hall : cs.all Char.isDigit = false := List.all_eq_false.2 ⟨c, h, by simp [hc]⟩
  simp [readDigits?, hall]

/-- A text with a character that is neither a digit nor a plus sign is not read. -/
theorem readNat?_of_mem {c : Char} {cs : List Char} (h : c ∈ cs) (hc : c.isDigit = false)
    (hplus : c ≠ '+') : readNat? cs = none := by
  rw [readNat?.eq_def]
  split
  · exact readDigits?_of_mem ((List.mem_cons.1 h).resolve_left hplus) hc
  · exact readDigits?_of_mem h hc

theorem readInt?_ofInt (i : Int) : readInt? (ofInt i) = some i := by
  cases i with
  | ofNat n =>
    rcases hc : ofNat n with _ | ⟨c, cs⟩
    · exact absurd hc (ofNat_ne_nil n)
    · have hd : c.isDigit = true := isDigit_of_mem_ofNat (hc ▸ List.mem_cons_self)
      have : readInt? (c :: cs) = (readNat? (c :: cs)).map Int.ofNat := by
        rw [readInt?]
        rintro r ⟨⟩
        exact absurd hd (by decide)
      rw [ofInt, hc, this, ← hc, readNat?_ofNat]
      rfl
  | negSucc n =>
    simp [ofInt, readInt?, readDigits?_ofNat, Int.negSucc_eq]

theorem readSigned?_ofInt {bits : Nat} {i : Int} (h : fitsSigned bits i = true) :
    readSigned? bits (ofInt i) = some i := by
  simp [readSigned?, readInt?_ofInt, h]

theorem ofInt_ne_nil (i : Int) : ofInt i ≠ [] := by
  cases i with
  | ofNat n => exact ofNat_ne_nil n
  | negSucc n => exact List.cons_ne_nil _ _

theorem isDigit_or_minus {i : Int} {c : Char} (h : c ∈ ofInt i) : c.isDigit = true ∨ c = '-' := by
  cases i with
  | ofNat n => exact .inl (isDigit_of_mem_ofNat h)
  | negSucc n =>
    rcases List.mem_cons.1 h with rfl | h
    · exact .inr rfl
    · exact .inl (isDigit_of_mem_ofNat h)

end Timetable.Text.Decimal
