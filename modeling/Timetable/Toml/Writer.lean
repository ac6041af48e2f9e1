/-!
# Writing TOML strings

A string can be written in four ways: with one quote or three on either side, and with double
quotes, between which backslashes start escapes, or with single quotes, between which every
character stands for itself. The first way is taken that needs no escape, in this order: one double
quote, one single quote, three double quotes, three single quotes. A string that always needs an
escape is written between double quotes, three of them if it has a line break.

* `Toml.quote`: the written form of a string.
-/

namespace Timetable.Toml

/-- The length of the longest row of a character, where `row` of them came just before. -/
def longestRow (c : Char) (row : Nat) : List Char → Nat
  | [] => row
  | d :: cs => if d = c then longestRow c (row + 1) cs else max row (longestRow c 0 cs)

/-- Whether a character has to be escaped wherever it stands: a control character other than a tab
or a line break. -/
def isControl (c : Char) : Bool :=
  (c.toNat < 0x20 && c ≠ '\t' && c ≠ '\n') || c.toNat = 0x7F

/-- The text of a character between double quotes. On several lines a line break stands for
itself. -/
def escape (long : Bool) (c : Char) : List Char :=
  if c = '\x08' then ['\\', 'b']
  else if c = '\t' then ['\\', 't']
  else if c = '\n' then if long then ['\n'] else ['\\', 'n']
  else if c = '\x0c' then ['\\', 'f']
  else if c = '\r' then ['\\', 'r']
  else if c = '\\' then ['\\', '\\']
  else if isControl c then
    let digit (n : Nat) : Char := (Nat.digitChar n).toUpper
    ['\\', 'u', '0', '0', digit (c.toNat / 16), digit (c.toNat % 16)]
  else [c]

/-- The text between double quotes. Between three of them, two double quotes in a row stand for
themselves; `row` of them came just before. -/
def escapeAll (long : Bool) (row : Nat) : List Char → List Char
  | [] => []
  | c :: cs =>
    if c = '"' then
      if long && row < 2 then '"' :: escapeAll long (row + 1) cs
      else ['\\', '"'] ++ escapeAll long 0 cs
    else escape long c ++ escapeAll long 0 cs

/-- The written form of a string. Behind three quotes a string with line breaks starts on a line of
its own. -/
def quote (s : String) : String :=
  let cs := s.toList
  let controls := cs.any isControl
  let broken := cs.contains '\n'
  let singles := longestRow '\'' 0 cs
  let doubles := longestRow '"' 0 cs
  let escapes := controls || cs.contains '\\'
  let around (mark : List Char) (body : List Char) : String := .ofList (mark ++ body ++ mark)
  let lines (mark : Char) (body : List Char) : String :=
    .ofList ([mark, mark, mark] ++ (if broken then ['\n'] else []) ++ body ++ [mark, mark, mark])
  if !escapes && doubles = 0 && !broken then around ['"'] (escapeAll false 0 cs)
  else if !controls && singles = 0 && !broken then around ['\''] cs
  else if !escapes && doubles ≤ 2 then lines '"' (escapeAll true 0 cs)
  else if !controls && singles ≤ 2 then lines '\'' cs
  else if broken then lines '"' (escapeAll true 0 cs)
  else around ['"'] (escapeAll false 0 cs)

end Timetable.Toml
