import Timetable.Ordered.Place
import Timetable.Text.Decimal

/-!
# JSON values and their text

Members of an object keep their order, and a key may occur twice, as in a text that has been read.
Objects that are made to be written have their members in the order of the keys. A number is kept as
it is spelled, since nothing here computes with numbers.

* `Json`: the values, and `Json.ofMembers`, `Json.ofNat`, `Json.ofTexts` to make them.
* `Json.Layout`: where line breaks and blanks go; `Json.compact` and `Json.pretty` are the two.
* `Json.write`: the text of a value.
-/

namespace Timetable

/-- A JSON value. -/
inductive Json where
  | null
  | bool (value : Bool)
  /-- A number as it is spelled. -/
  | number (spelling : String)
  | string (value : String)
  | array (items : List Json)
  | object (members : List (String × Json))
  deriving Inhabited

namespace Json

/-- The object of the members, in the order of their keys; of several with one key the last one
counts. -/
def ofMembers (members : List (String × Json)) : Json :=
  .object (members.foldl (fun sorted m => Ordered.place Prod.fst m sorted) [])

def ofNat (n : Nat) : Json := .number (Text.Decimal.natText n)

def ofTexts (texts : List String) : Json := .array (texts.map .string)

/-! ### Writing -/

/-- The text of a character inside a string. Quotes, backslashes and control characters are
escaped, all others stand for themselves. -/
def escape (c : Char) : String :=
  if c = '"' then "\\\""
  else if c = '\\' then "\\\\"
  else if c = '\n' then "\\n"
  else if c = '\r' then "\\r"
  else if c = '\t' then "\\t"
  else if c.toNat = 8 then "\\b"
  else if c.toNat = 12 then "\\f"
  else if c.toNat < 32 then
    String.ofList ['\\', 'u', '0', '0', Nat.digitChar (c.toNat / 16), Nat.digitChar (c.toNat % 16)]
  else c.toString

def quote (s : String) : String := "\"" ++ String.join (s.toList.map escape) ++ "\""

/-- Where line breaks and blanks go in a text. -/
structure Layout where
  /-- What stands before an item, and before the closing bracket, at a depth. -/
  lineBreak : Nat → String
  /-- What stands between a key and its value. -/
  colon : String

/-- Everything on one line, without blanks. -/
def Layout.compact : Layout := ⟨fun _ => "", ":"⟩

/-- Every item on a line of its own, two blanks further in for every level. -/
def Layout.pretty : Layout := ⟨fun depth => "\n" ++ "".pushn ' ' (2 * depth), ": "⟩

mutual

/-- The text of a value that stands at a depth. -/
def writeAt (layout : Layout) (depth : Nat) : Json → String
  | .null => "null"
  | .bool b => if b then "true" else "false"
  | .number spelling => spelling
  | .string s => quote s
  | .array [] => "[]"
  | .array (item :: items) =>
    "[" ++ layout.lineBreak (depth + 1) ++ writeAt layout (depth + 1) item ++
      writeItems layout (depth + 1) items ++ layout.lineBreak depth ++ "]"
  | .object [] => "\x7b\x7d"
  | .object ((key, value) :: members) =>
    "\x7b" ++ layout.lineBreak (depth + 1) ++ quote key ++ layout.colon ++
      writeAt layout (depth + 1) value ++ writeMembers layout (depth + 1) members ++
      layout.lineBreak depth ++ "\x7d"

/-- The text of the items after the first one. -/
def writeItems (layout : Layout) (depth : Nat) : List Json → String
  | [] => ""
  | item :: items =>
    "," ++ layout.lineBreak depth ++ writeAt layout depth item ++ writeItems layout depth items

/-- The text of the members after the first one. -/
def writeMembers (layout : Layout) (depth : Nat) : List (String × Json) → String
  | [] => ""
  | (key, value) :: members =>
    "," ++ layout.lineBreak depth ++ quote key ++ layout.colon ++ writeAt layout depth value ++
      writeMembers layout depth members

end

def write (layout : Layout) (j : Json) : String := writeAt layout 0 j

def compact (j : Json) : String := j.write .compact

def pretty (j : Json) : String := j.write .pretty

end Json

end Timetable
