/-!
# White space

The characters of Unicode's `White_Space` property and the removal of them from both ends of a
text. Names of resources, keys, strategies and slot numbers may be surrounded by them.

* `isBlank`: whether a character is white space.
* `trim`: a text without the white space at its two ends.
* `trimBoth_of_ends`: a text without white space at its ends is kept as it is.
* `mem_trimBoth`: a character that is no white space is kept.
-/

namespace Timetable.Text

/-- The 25 characters of the property `White_Space`. -/
def isBlank (c : Char) : Bool :=
  let n := c.toNat
  (0x09 ≤ n && n ≤ 0x0D) || n == 0x20 || n == 0x85 || n == 0xA0 || n == 0x1680 ||
    (0x2000 ≤ n && n ≤ 0x200A) || n == 0x2028 || n == 0x2029 || n == 0x202F || n == 0x205F ||
    n == 0x3000

def trimLeft (cs : List Char) : List Char := cs.dropWhile isBlank

def trimBoth (cs : List Char) : List Char := (trimLeft (trimLeft cs).reverse).reverse

def trim (s : String) : String := String.ofList (trimBoth s.toList)

def isBlankText (s : String) : Bool := s.toList.all isBlank

/-- White space in the sense of the core library is white space here. -/
theorem isBlank_of_isWhitespace {c : Char} (h : c.isWhitespace = true) : isBlank c = true := by
  simp only [Char.isWhitespace, Bool.or_eq_true, decide_eq_true_eq] at h
  rcases h with ((rfl | rfl) | rfl) | rfl <;> decide

theorem trimLeft_eq_nil_iff {cs : List Char} : trimLeft cs = [] ↔ cs.all isBlank = true := by
  induction cs with
  | nil => simp [trimLeft]
  | cons c cs ih =>
    by_cases h : isBlank c
    · simp only [trimLeft, List.dropWhile, h, List.all_cons, Bool.true_and]
      exact ih
    · simp [trimLeft, List.dropWhile, h]

theorem isBlank_of_isDigit {c : Char} (h : c.isDigit = true) : isBlank c = false := by
  simp only [Char.isDigit, Bool.and_eq_true, decide_eq_true_eq, ge_iff_le,
    UInt32.le_iff_toNat_le] at h
  have hlo : 48 ≤ c.toNat := h.1
  have hhi : c.toNat ≤ 57 := h.2
  simp [isBlank]
  omega

theorem trimLeft_of_head {cs : List Char} (h : ∀ c ∈ cs.head?, isBlank c = false) :
    trimLeft cs = cs := by
  cases cs with
  | nil => rfl
  | cons c cs => simp [trimLeft, h c rfl]

/-- A text that neither starts nor ends with white space is kept as it is. -/
theorem trimBoth_of_ends {cs : List Char} (hfirst : ∀ c ∈ cs.head?, isBlank c = false)
    (hlast : ∀ c ∈ cs.getLast?, isBlank c = false) : trimBoth cs = cs := by
  rw [trimBoth, trimLeft_of_head hfirst, trimLeft_of_head (by simpa using hlast),
    List.reverse_reverse]

theorem trimBoth_of_forall {cs : List Char} (h : ∀ c ∈ cs, isBlank c = false) :
    trimBoth cs = cs :=
  trimBoth_of_ends (fun c hc => h c (List.mem_of_head? hc))
    fun c hc => h c (List.mem_of_getLast? hc)

theorem mem_trimLeft {c : Char} {cs : List Char} (h : c ∈ cs) (hc : isBlank c = false) :
    c ∈ trimLeft cs := by
  induction cs with
  | nil => cases h
  | cons d cs ih =>
    cases hd : isBlank d with
    | true =>
      have hmem : c ∈ cs := (List.mem_cons.1 h).resolve_left fun heq => by simp [heq, hd] at hc
      simpa [trimLeft, hd] using ih hmem
    | false => simpa [trimLeft, hd] using h

/-- Nothing but white space is removed. -/
theorem mem_trimBoth {c : Char} {cs : List Char} (h : c ∈ cs) (hc : isBlank c = false) :
    c ∈ trimBoth cs := by
  rw [trimBoth, List.mem_reverse]
  exact mem_trimLeft (List.mem_reverse.2 (mem_trimLeft h hc)) hc

theorem trimBoth_cons_of_isBlank {c : Char} (h : isBlank c = true) (cs : List Char) :
    trimBoth (c :: cs) = trimBoth cs := by
  simp [trimBoth, trimLeft, h]

end Timetable.Text
