import Timetable.Resource
import Timetable.Text.Blank
import Timetable.Text.Decimal
import Timetable.Text.Pieces

/-!
# Resources as text

A place on a line is written `q3`, a cell `q(2, 5)`, a name as it is. A name that would not be read
back as itself is written between single quotes. Reading is more generous than writing: white space
around a token is dropped, a cell may be written `2,5`, and any name may be quoted.

* `Resource.parse`: the resource that a text denotes, or why it denotes none.
* `Resource.render`: the written form.
* `Resource.TextError`: the three ways in which a text can fail.
-/

namespace Timetable

open Text

namespace Resource

/-- Why a text denotes no resource. -/
inductive TextError where
  /-- There is nothing but white space. -/
  | empty
  /-- What follows the letter of a place is not an index. -/
  | badLine (text : String)
  /-- The coordinates of a cell are not two numbers that fit. -/
  | badGrid (text : String)
  deriving DecidableEq

def TextError.message : TextError → String
  | .empty => "empty resource name"
  | .badLine text => "invalid line index: " ++ text
  | .badGrid text => "invalid grid coordinate: " ++ text

/-- The characters without a last one, if the last one is the given one. -/
def stripEnd? (last : Char) (cs : List Char) : Option (List Char) :=
  if cs.getLast? = some last then some cs.dropLast else none

/-- What stands between the quotes of a quoted token. -/
def quotedName? : List Char → Option (List Char)
  | '\'' :: cs => stripEnd? '\'' cs
  | _ => none

/-- What stands between the parentheses of a token such as `q(2, 5)`. -/
def cellBody? : List Char → Option (List Char)
  | 'q' :: '(' :: cs => stripEnd? ')' cs
  | _ => none

/-- What follows the letter of a token that has to be a place on a line. -/
def linePart? : List Char → Option (List Char)
  | 'q' :: c :: cs => if c.isDigit || c == '-' then some (c :: cs) else none
  | _ => none

/-- A coordinate: a number of 32 bits, perhaps between white space. -/
def readCoordinate? (cs : List Char) : Option Int32 :=
  (Decimal.readSigned? 32 (trimBoth cs)).map Int32.ofInt

/-- The cell whose two coordinates stand on either side of a single comma. -/
def readCell (cs : List Char) : Except TextError Resource :=
  match pieces ',' cs with
  | [row, col] =>
    match readCoordinate? row, readCoordinate? col with
    | some row, some col => .ok (.grid row col)
    | _, _ => .error (.badGrid (String.ofList cs))
  | _ => .error (.badGrid (String.ofList cs))

/-- The resource of a token without quotes. A comma makes a cell of it, an index after `q` a place
on a line; every other token is a name. -/
def readBare (cs : List Char) : Except TextError Resource :=
  if cs.isEmpty then .error .empty
  else
    match cellBody? cs with
    | some body => readCell body
    | none =>
      if cs.contains ',' then readCell cs
      else
        match linePart? cs with
        | some digits =>
          match Decimal.readSigned? 64 digits with
          | some index => .ok (.line (Int64.ofInt index))
          | none => .error (.badLine (String.ofList cs))
        | none => .ok (.named (String.ofList cs))

/-- The resource of a token, white space around it dropped. Between quotes everything is a name,
taken as it stands. -/
def readToken (cs : List Char) : Except TextError Resource :=
  match quotedName? (trimBoth cs) with
  | some name => .ok (.named (String.ofList name))
  | none => readBare (trimBoth cs)

def parse (text : String) : Except TextError Resource := readToken text.toList

/-- Whether a name has to be quoted to be read back as itself. -/
def needsQuotes (name : List Char) : Bool :=
  name.head? == some '\'' || trimBoth name != name ||
    match readBare name with
    | .ok r => r != .named (String.ofList name)
    | .error _ => true

def renderChars : Resource → List Char
  | .line index => 'q' :: Decimal.ofInt index.toInt
  | .grid row col =>
    ['q', '('] ++ Decimal.ofInt row.toInt ++ [',', ' '] ++ Decimal.ofInt col.toInt ++ [')']
  | .named name =>
    if needsQuotes name.toList then ['\''] ++ name.toList ++ ['\''] else name.toList

/-- The written form. -/
def render (r : Resource) : String := String.ofList r.renderChars

def describe (r : Resource) : String := "Resource(" ++ r.render ++ ")"

end Resource

end Timetable
