import Timetable.Json
import Timetable.Text.FloatRange
import Timetable.Text.Hex

/-!
# Reading JSON

The grammar is that of JSON without any extension. Two things are refused beyond it: a number
whose magnitude is infinite in 64-bit floating point, found the quick way, and a value in which more
than 127 arrays and objects stand inside each other.

A reader takes characters from the front of a text and answers what it read and what is left.

* `Json.readValue`: a value, with a limit on its depth.
* `Json.read?`: the value of a whole text.
-/

namespace Timetable.Json

def skipSpace : List Char → List Char
  | c :: cs => if c = ' ' || c = '\n' || c = '\t' || c = '\r' then skipSpace cs else c :: cs
  | [] => []

/-! ### Strings -/

/-- The character of an escape, after `\u`. A code of the first half of a pair needs the code of a
second half behind it; a second half alone is refused. -/
def readUnicode (cs : List Char) : Option (Char × List Char) := do
  let (code, cs) ← Text.readHex 4 cs
  if 0xDC00 ≤ code && code ≤ 0xDFFF then none
  else if 0xD800 ≤ code && code ≤ 0xDBFF then
    match cs with
    | '\\' :: 'u' :: cs => do
      let (low, cs) ← Text.readHex 4 cs
      if 0xDC00 ≤ low && low ≤ 0xDFFF then
        some (Char.ofNat (0x10000 + (code - 0xD800) * 0x400 + (low - 0xDC00)), cs)
      else none
    | _ => none
  else some (Char.ofNat code, cs)

/-- The character that a letter stands for behind a backslash. -/
def simpleEscape? (c : Char) : Option Char :=
  [('"', '"'), ('\\', '\\'), ('/', '/'), ('b', '\x08'), ('f', '\x0c'), ('n', '\n'), ('r', '\r'),
    ('t', '\t')].lookup c

/-- The rest of a string up to its closing quote. The first argument bounds the characters. -/
def readChars : Nat → List Char → Option (List Char × List Char)
  | _, '"' :: cs => some ([], cs)
  | fuel + 1, '\\' :: 'u' :: cs => do
    let (c, cs) ← readUnicode cs
    let (text, cs) ← readChars fuel cs
    return (c :: text, cs)
  | fuel + 1, '\\' :: e :: cs => do
    let c ← simpleEscape? e
    let (text, cs) ← readChars fuel cs
    return (c :: text, cs)
  | fuel + 1, c :: cs =>
    if c.toNat < 32 || c = '\\' then none
    else do
      let (text, cs) ← readChars fuel cs
      return (c :: text, cs)
  | _, _ => none

/-- The rest of a string after its opening quote. -/
def readString (cs : List Char) : Option (String × List Char) :=
  (readChars cs.length cs).map fun r => (String.ofList r.1, r.2)

/-! ### Numbers -/

/-- A number of the grammar: whole part, digits after the point, and exponent. -/
structure Numeral where
  negative : Bool
  whole : List Char
  fraction : List Char
  exponent : Int
  /-- The characters that spell the number. -/
  spelling : List Char

def spanDigits (cs : List Char) : List Char × List Char := cs.span Char.isDigit

/-- The whole part: one digit, or several of which the first is not zero. -/
def readWhole (cs : List Char) : Option (List Char × List Char) :=
  match spanDigits cs with
  | ([], _) => none
  | (['0'], rest) => some (['0'], rest)
  | ('0' :: _, _) => none
  | (digits, rest) => some (digits, rest)

/-- The digits after a point, none where there is no point. -/
def readFraction : List Char → Option (List Char × List Char)
  | '.' :: cs =>
    match spanDigits cs with
    | ([], _) => none
    | (digits, rest) => some (digits, rest)
  | cs => some ([], cs)

/-- The exponent, zero where there is none. -/
def readExponent (cs : List Char) : Option (Int × List Char) :=
  let digitsAfter (sign : Int) (cs : List Char) : Option (Int × List Char) :=
    match spanDigits cs with
    | ([], _) => none
    | (digits, rest) => some (sign * Nat.ofDigitChars 10 digits 0, rest)
  match cs with
  | c :: cs' =>
    if c = 'e' || c = 'E' then
      match cs' with
      | '+' :: cs => digitsAfter 1 cs
      | '-' :: cs => digitsAfter (-1) cs
      | cs => digitsAfter 1 cs
    else some (0, cs)
  | [] => some (0, cs)

/-- A number of the grammar. -/
def readNumeral (cs : List Char) : Option (Numeral × List Char) := do
  let (negative, unsigned) := match cs with
    | '-' :: rest => (true, rest)
    | _ => (false, cs)
  let (whole, rest) ← readWhole unsigned
  let (fraction, rest) ← readFraction rest
  let (exponent, rest) ← readExponent rest
  return (⟨negative, whole, fraction, exponent, cs.take (cs.length - rest.length)⟩, rest)

/-- Whether the magnitude of a number is infinite, found the quick way. Digits before the point that
are left count as tens, digits behind it that are left do not count. -/
def Numeral.isInfinite (n : Numeral) : Bool :=
  let (counted, tens) := Text.fillWord 0 n.whole
  let (counted, uncounted) := Text.fillWord counted n.fraction
  let places : Int := n.fraction.length - uncounted.length
  Text.productIsInfinite counted (n.exponent + tens.length - places)

/-! ### Values -/

/-- Items with commas between them up to the closing character. The number bounds the items. -/
def readSequence {α : Type} (close : Char) (readItem : List Char → Option (α × List Char)) :
    Nat → List Char → Option (List α × List Char)
  | 0, _ => none
  | fuel + 1, cs => do
    let (item, cs) ← readItem (skipSpace cs)
    match skipSpace cs with
    | c :: cs =>
      if c = close then return ([item], cs)
      else if c = ',' then do
        let (items, cs) ← readSequence close readItem fuel cs
        return (item :: items, cs)
      else none
    | [] => none

def readItems {α : Type} (close : Char) (readItem : List Char → Option (α × List Char))
    (cs : List Char) : Option (List α × List Char) :=
  match skipSpace cs with
  | c :: rest => if c = close then some ([], rest) else readSequence close readItem cs.length cs
  | [] => none

/-- A key, a colon and a value. -/
def readMember (readItem : List Char → Option (Json × List Char)) :
    List Char → Option ((String × Json) × List Char)
  | '"' :: cs => do
    let (key, cs) ← readString cs
    match skipSpace cs with
    | ':' :: cs => do
      let (value, cs) ← readItem (skipSpace cs)
      return ((key, value), cs)
    | _ => none
  | _ => none

/-- A number that is not out of range. -/
def readNumber (cs : List Char) : Option (Json × List Char) := do
  let (n, cs) ← readNumeral cs
  if n.isInfinite then none else return (.number (String.ofList n.spelling), cs)

/-- A value in which at most the given number of arrays and objects stand inside each other. -/
def readValue : Nat → List Char → Option (Json × List Char)
  | _, 'n' :: 'u' :: 'l' :: 'l' :: cs => some (.null, cs)
  | _, 't' :: 'r' :: 'u' :: 'e' :: cs => some (.bool true, cs)
  | _, 'f' :: 'a' :: 'l' :: 's' :: 'e' :: cs => some (.bool false, cs)
  | _, '"' :: cs => (readString cs).map fun r => (.string r.1, r.2)
  | 0, '[' :: _ => none
  | levels + 1, '[' :: cs =>
    (readItems ']' (readValue levels) cs).map fun r => (.array r.1, r.2)
  | 0, '\x7b' :: _ => none
  | levels + 1, '\x7b' :: cs =>
    (readItems '\x7d' (readMember (readValue levels)) cs).map fun r => (.object r.1, r.2)
  | _, cs => readNumber cs

/-- How many arrays and objects may stand inside each other. -/
def maxLevels : Nat := 127

/-- The value of a text that holds one value and nothing else. -/
def read? (text : String) : Option Json := do
  let (value, rest) ← readValue maxLevels (skipSpace text.toList)
  if (skipSpace rest).isEmpty then return value else none

end Timetable.Json
