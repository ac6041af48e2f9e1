import Timetable.Text.FloatRange
import Timetable.Text.Hex
import Timetable.Text.Decimal
import Timetable.Toml

/-!
# Reading TOML

The grammar is that of TOML 1.0. Beyond it, a value is refused in which 80 or more arrays and inline
tables stand inside each other, and a key of 80 or more parts.

A reader takes characters from the front of a text and answers what it read and what is left. The
members of a document are found in two steps: its lines are read as statements, and the statements
are put together.

* `Toml.readValue`: a value, with a limit on its depth.
* `Toml.readStatements`: the statements of a text.
* `Toml.read?`: the members of a whole text.
-/

namespace Timetable.Toml

/-! ### Blanks, comments and line ends -/

def skipBlanks (cs : List Char) : List Char := cs.dropWhile fun c => c = ' ' || c = '\t'

/-- Whether a character may stand for itself in a comment or a string on one line. -/
def isPlain (c : Char) : Bool := c = '\t' || (0x20 ≤ c.toNat && c.toNat ≠ 0x7F)

def skipComment : List Char → List Char
  | '#' :: cs => cs.dropWhile isPlain
  | cs => cs

def lineBreak? : List Char → Option (List Char)
  | '\n' :: cs => some cs
  | '\r' :: '\n' :: cs => some cs
  | _ => none

/-- What is left behind the end of a line: blanks, a comment, and a line break or the end. -/
def endLine? (cs : List Char) : Option (List Char) :=
  match skipComment (skipBlanks cs) with
  | [] => some []
  | cs => lineBreak? cs

/-- What is left behind blanks, comments and line breaks. The number bounds the lines. -/
def skipLines : Nat → List Char → List Char
  | 0, cs => skipBlanks cs
  | fuel + 1, cs =>
    match lineBreak? (skipComment (skipBlanks cs)) with
    | some rest => skipLines fuel rest
    | none => skipBlanks cs

/-! ### Strings -/

/-- The character that a letter stands for behind a backslash. -/
def simpleEscape? (c : Char) : Option Char :=
  [('b', '\x08'), ('t', '\t'), ('n', '\n'), ('f', '\x0c'), ('r', '\r'), ('"', '"'),
    ('\\', '\\')].lookup c

/-- The character of a number, unless it is the number of half a surrogate pair or too large. -/
def scalar? (n : Nat) : Option Char :=
  if n < 0xD800 || (0xDFFF < n && n < 0x110000) then some (Char.ofNat n) else none

/-- The character of an escape, after the backslash. -/
def readEscape : List Char → Option (Char × List Char)
  | 'u' :: cs => do
    let (n, cs) ← Text.readHex 4 cs
    return (← scalar? n, cs)
  | 'U' :: cs => do
    let (n, cs) ← Text.readHex 8 cs
    return (← scalar? n, cs)
  | c :: cs => do
    return (← simpleEscape? c, cs)
  | [] => none

/-- The rest of a string on one line up to its quote. Only a double quote lets backslashes start
escapes. The number bounds the characters. -/
def readShort (quote : Char) : Nat → List Char → Option (List Char × List Char)
  | 0, _ => none
  | _, [] => none
  | fuel + 1, c :: cs =>
    if c = quote then some ([], cs)
    else do
      let (c, cs) ← if c = '\\' && quote = '"' then readEscape cs
        else if isPlain c then some (c, cs) else none
      let (later, cs) ← readShort quote fuel cs
      return (c :: later, cs)

/-- What is left behind the blanks and line breaks after a backslash at the end of a line. -/
def foldLine? (cs : List Char) : Option (List Char) :=
  (lineBreak? (skipBlanks cs)).map fun cs => blankLines cs.length cs
where
  /-- What is left behind blanks and line breaks. -/
  blankLines : Nat → List Char → List Char
    | 0, cs => skipBlanks cs
    | fuel + 1, cs =>
      match lineBreak? (skipBlanks cs) with
      | some rest => blankLines fuel rest
      | none => skipBlanks cs

/-- The next character of a string on several lines; a folded line end is no character. -/
def readLongChar (quote : Char) : List Char → Option (List Char × List Char)
  | '\n' :: cs => some (['\n'], cs)
  | '\r' :: '\n' :: cs => some (['\n'], cs)
  | c :: cs =>
    if c = '\\' && quote = '"' then
      match foldLine? cs with
      | some cs => some ([], cs)
      | none => (readEscape cs).map fun r => ([r.1], r.2)
    else if isPlain c then some ([c], cs)
    else none
  | [] => none

/-- The rest of a string on several lines. Of a row of quotes the last three end it; there can be
two more in front of them. The number bounds the steps. -/
def readLong (quote : Char) : Nat → List Char → Option (List Char × List Char)
  | 0, _ => none
  | fuel + 1, cs =>
    let quotes := (cs.takeWhile (· == quote)).length
    if 3 ≤ quotes then
      let kept := min (quotes - 3) 2
      some (List.replicate kept quote, cs.drop (kept + 3))
    else do
      let (part, cs) ← if 0 < quotes then some (cs.take quotes, cs.drop quotes)
        else readLongChar quote cs
      let (later, cs) ← readLong quote fuel cs
      return (part ++ later, cs)

/-- A string on one line, with either quote. -/
def readLineString : List Char → Option (String × List Char)
  | c :: cs =>
    if c = '"' || c = '\'' then (readShort c (cs.length + 1) cs).map fun r => (.ofList r.1, r.2)
    else none
  | [] => none

/-- A string, with one or three of either quote. A line break after three quotes does not count. -/
def readString : List Char → Option (String × List Char)
  | a :: b :: c :: cs =>
    if a = b && b = c && (a = '"' || a = '\'') then
      let cs := (lineBreak? cs).getD cs
      (readLong a (cs.length + 1) cs).map fun r => (.ofList r.1, r.2)
    else readLineString (a :: b :: c :: cs)
  | cs => readLineString cs

/-! ### Keys -/

/-- Whether a character may stand in a key without quotes. -/
def isKeyChar (c : Char) : Bool := c.isAlphanum || c = '_' || c = '-'

def readKeyPart (cs : List Char) : Option (String × List Char) :=
  match cs.span isKeyChar with
  | ([], _) => readLineString cs
  | (part, rest) => some (.ofList part, rest)

/-- A key with dots and the blanks around its parts. The number bounds the parts. -/
def readKeyPath : Nat → List Char → Option (KeyPath × List Char)
  | 0, _ => none
  | parts + 1, cs => do
    let (part, cs) ← readKeyPart (skipBlanks cs)
    match skipBlanks cs with
    | '.' :: cs => do
      let (k, cs) ← readKeyPath parts cs
      return ({ k with path := part :: k.path }, cs)
    | cs => return (⟨[], part⟩, cs)

/-- The bound on nesting: less than 80 levels. -/
def maxLevels : Nat := 79

/-! ### Numbers and times -/

/-- Digits between which single underscores may stand, and what is left. There is at least one
digit. The underscores are dropped. -/
def readDigits (isDigit : Char → Bool) : List Char → Option (List Char × List Char)
  | c :: '_' :: d :: cs =>
    if isDigit c && isDigit d then
      (readDigits isDigit (d :: cs)).map fun r => (c :: r.1, r.2)
    else none
  | c :: d :: cs =>
    if isDigit c then
      if isDigit d then (readDigits isDigit (d :: cs)).map fun r => (c :: r.1, r.2)
      else if d = '_' then none
      else some ([c], d :: cs)
    else none
  | [c] => if isDigit c then some ([c], []) else none
  | [] => none

/-- Whether a text starts with a plus or a minus sign, and what is left behind it. -/
def splitSign : List Char → Option Char × List Char
  | '+' :: cs => (some '+', cs)
  | '-' :: cs => (some '-', cs)
  | cs => (none, cs)

/-- The digits of a whole number without a sign: a zero, or digits of which the first is none. -/
def readWhole : List Char → Option (List Char × List Char)
  | '0' :: cs => some (['0'], cs)
  | cs => readDigits Char.isDigit cs

def readFraction : List Char → Option (List Char × List Char)
  | '.' :: cs => readDigits Char.isDigit cs
  | _ => none

/-- The number behind the letter of an exponent. -/
def readExponent : List Char → Option (Int × List Char)
  | c :: cs => do
    if c ≠ 'e' && c ≠ 'E' then none
    let (sign, cs) := splitSign cs
    let (digits, cs) ← readDigits Char.isDigit cs
    let size := Nat.ofDigitChars 10 digits 0
    return (if sign = some '-' then -(size : Int) else size, cs)
  | [] => none

def dropWord? (word : String) (cs : List Char) : Option (List Char) :=
  if word.toList.isPrefixOf cs then some (cs.drop word.length) else none

/-- What is left behind a number with a point or an exponent. It must not round to plus infinity. -/
def skipFloat? (cs : List Char) : Option (List Char) := do
  let (sign, cs) := splitSign cs
  if let some rest := (dropWord? "inf" cs).or (dropWord? "nan" cs) then return rest
  let (whole, cs) ← readWhole cs
  let (fraction, exponent, cs) ← match readFraction cs, readExponent cs with
    | some (fraction, rest), _ =>
      match readExponent rest with
      | some (exponent, rest) => some (fraction, exponent, rest)
      | none => some (fraction, 0, rest)
    | none, some (exponent, rest) => some ([], exponent, rest)
    | none, none => none
  let digits := Nat.ofDigitChars 10 (whole ++ fraction) 0
  if sign ≠ some '-' && Text.roundsToInfinity digits (exponent - fraction.length) then none
  return cs

/-- What is left behind digits of a base, whose number 64 bits with a sign can tell. -/
def skipBased? (base : Nat) (cs : List Char) : Option (List Char) := do
  let isDigit (c : Char) : Bool := (Text.hexDigit? c).any (· < base)
  let (digits, cs) ← readDigits isDigit cs
  let value := digits.foldl (fun n c => n * base + (Text.hexDigit? c).getD 0) 0
  if Text.Decimal.fitsSigned 64 value then return cs else none

/-- What is left behind a whole number that 64 bits with a sign can tell. -/
def skipInteger? : List Char → Option (List Char)
  | '0' :: 'x' :: cs => skipBased? 16 cs
  | '0' :: 'o' :: cs => skipBased? 8 cs
  | '0' :: 'b' :: cs => skipBased? 2 cs
  | cs => do
    let (sign, cs) := splitSign cs
    let (digits, cs) ← readWhole cs
    let size : Int := Nat.ofDigitChars 10 digits 0
    let value := if sign = some '-' then -size else size
    if Text.Decimal.fitsSigned 64 value then return cs else none

/-- The number of exactly so many digits, and what is left. -/
def readField (count : Nat) (cs : List Char) : Option (Nat × List Char) :=
  let field := cs.take count
  if field.length = count && field.all Char.isDigit then
    some (Nat.ofDigitChars 10 field 0, cs.drop count)
  else none

def dropChar? (c : Char) : List Char → Option (List Char)
  | d :: cs => if d = c then some cs else none
  | [] => none

def daysIn (year month : Nat) : Nat :=
  if month = 2 then
    if year % 4 = 0 && (year % 100 ≠ 0 || year % 400 = 0) then 29 else 28
  else if [4, 6, 9, 11].contains month then 30
  else 31

def skipDate? (cs : List Char) : Option (List Char) := do
  let (year, cs) ← readField 4 cs
  let (month, cs) ← readField 2 (← dropChar? '-' cs)
  let (day, cs) ← readField 2 (← dropChar? '-' cs)
  if 1 ≤ month && month ≤ 12 && 1 ≤ day && day ≤ daysIn year month then return cs else none

def skipMinutes? (cs : List Char) : Option (List Char) := do
  let (hour, cs) ← readField 2 cs
  let (minute, cs) ← readField 2 (← dropChar? ':' cs)
  if hour < 24 && minute < 60 then return cs else none

/-- What is left behind a time of day, which can fall into a leap second. -/
def skipTime? (cs : List Char) : Option (List Char) := do
  let cs ← skipMinutes? cs
  let (second, cs) ← readField 2 (← dropChar? ':' cs)
  if second > 60 then none
  match cs with
  | '.' :: d :: cs => if d.isDigit then return cs.dropWhile Char.isDigit else none
  | cs => return cs

/-- What is left behind the distance to universal time. -/
def skipOffset? : List Char → Option (List Char)
  | c :: cs =>
    if c = 'Z' || c = 'z' then some cs
    else if c = '+' || c = '-' then skipMinutes? cs
    else none
  | [] => none

/-- What is left behind a date, a time, or both, then perhaps with an offset. -/
def skipMoment? (cs : List Char) : Option (List Char) :=
  match skipDate? cs with
  | none => skipTime? cs
  | some [] => some []
  | some (c :: rest) =>
    let time := if c = 'T' || c = 't' || c = ' ' then skipTime? rest else none
    match time with
    | none => some (c :: rest)
    | some rest => some ((skipOffset? rest).getD rest)

/-! ### Values -/

/-- Items with commas between them, up to the bracket; a last comma may follow the last item. The
number bounds the items. -/
def readItems (readItem : List Char → Option (Toml × List Char)) :
    Nat → List Char → Option (List Toml × List Char)
  | 0, _ => none
  | fuel + 1, cs =>
    match skipLines cs.length cs with
    | ']' :: cs => some ([], cs)
    | cs => do
      let (item, cs) ← readItem cs
      match skipLines cs.length cs with
      | ',' :: cs => do
        let (items, cs) ← readItems readItem fuel cs
        return (item :: items, cs)
      | ']' :: cs => return ([item], cs)
      | _ => none

/-- A key, an equals sign and a value, with the blanks around them. -/
def readEntry (readItem : List Char → Option (Toml × List Char)) (cs : List Char) :
    Option ((KeyPath × Toml) × List Char) := do
  let (k, cs) ← readKeyPath maxLevels cs
  let cs ← dropChar? '=' (skipBlanks cs)
  let (value, cs) ← readItem (skipBlanks cs)
  return ((k, value), skipBlanks cs)

/-- Entries with commas between them, up to the brace. The number bounds the entries. -/
def readEntries (readItem : List Char → Option (Toml × List Char)) :
    Nat → List Char → Option (List (KeyPath × Toml) × List Char)
  | 0, _ => none
  | fuel + 1, cs => do
    let (entry, cs) ← readEntry readItem cs
    match cs with
    | ',' :: cs => do
      let (entries, cs) ← readEntries readItem fuel cs
      return (entry :: entries, cs)
    | '\x7d' :: cs => return ([entry], cs)
    | _ => none

/-- A value that is neither a string nor made of other values. -/
def readOther (cs : List Char) : Option (Toml × List Char) :=
  let rest := dropWord? "true" cs <|> dropWord? "false" cs <|> skipMoment? cs <|> skipFloat? cs <|>
    skipInteger? cs
  rest.map fun cs => (.other, cs)

/-- A value in which at most the given number of arrays and inline tables stand inside each
other. -/
def readValue : Nat → List Char → Option (Toml × List Char)
  | 0, '[' :: _ => none
  | levels + 1, '[' :: cs =>
    (readItems (readValue levels) (cs.length + 1) cs).map fun r => (.array r.1, r.2)
  | 0, '\x7b' :: _ => none
  | levels + 1, '\x7b' :: cs =>
    match skipBlanks cs with
    | '\x7d' :: cs => some (.inlineTable [], cs)
    | cs => do
      let (entries, cs) ← readEntries (readValue levels) (cs.length + 1) cs
      return (← ofEntries entries, cs)
  | _, c :: cs =>
    if c = '"' || c = '\'' then (readString (c :: cs)).map fun r => (.text r.1, r.2)
    else readOther (c :: cs)
  | _, [] => none

/-! ### Documents -/

/-- What a line states, after the blanks at its front. An empty line states nothing. -/
def readLine : List Char → Option (Option Statement × List Char)
  | '[' :: '[' :: cs => do
    let (k, cs) ← readKeyPath maxLevels cs
    let cs ← dropWord? "]]" cs
    return (some (.row k), cs)
  | '[' :: cs => do
    let (k, cs) ← readKeyPath maxLevels cs
    let cs ← dropChar? ']' cs
    return (some (.table k), cs)
  | cs =>
    if (endLine? cs).isSome then some (none, cs)
    else (readEntry (readValue maxLevels) cs).map fun r => (some (.entry r.1.1 r.1.2), r.2)

/-- The statements of a text, line by line. The number bounds the lines. -/
def readStatements : Nat → List Char → Option (List Statement)
  | _, [] => some []
  | 0, _ => none
  | fuel + 1, cs => do
    let (statement, cs) ← readLine (skipBlanks cs)
    let cs ← endLine? cs
    let later ← readStatements fuel cs
    return statement.toList ++ later

/-- The members of a text. A byte order mark at its front does not count. -/
def read? (text : String) : Option Members := do
  let cs := match text.toList with
    | '\uFEFF' :: cs => cs
    | cs => cs
  let statements ← readStatements cs.length cs
  ofStatements statements

end Timetable.Toml
