import Timetable.Fault
import Timetable.Text.Blank

/-!
# Strategies and alignments

A strategy says where a bare operation goes when it is inserted, an alignment how schedules of
different lengths are lined up when they are merged. Both are known by a name. A name is read
without the white space around it and in any case of ASCII letters; in the name of a strategy a
hyphen stands for an underscore.
-/

namespace Timetable

open Text

/-- Where a bare operation goes when it is inserted. -/
inductive Strategy where
  /-- Into a fresh slot at the cursor. -/
  | new
  /-- The first operation into a fresh slot, the following ones as with `inline`. -/
  | newThenInline
  /-- Into the slot just before the cursor if it fits there, else into a fresh one. -/
  | inline
  /-- Into the earliest slot that can be reached by moving back from the cursor. -/
  | earliest
  deriving DecidableEq

namespace Strategy

instance : Inhabited Strategy := ⟨earliest⟩

def name : Strategy → String
  | new => "new"
  | newThenInline => "new_then_inline"
  | inline => "inline"
  | earliest => "earliest"

def all : List Strategy := [new, newThenInline, inline, earliest]

def ofName? (name : String) : Option Strategy := all.find? fun s => s.name == name

def parse (text : String) : Except Fault Strategy :=
  let plain := (trimBoth text.toList).map fun c => if c.toLower = '-' then '_' else c.toLower
  match ofName? (String.ofList plain) with
  | some s => .ok s
  | none => .error (.unknownStrategy text)

theorem ofName?_name (s : Strategy) : ofName? s.name = some s := by cases s <;> decide

end Strategy

/-- How schedules of different lengths are lined up. -/
inductive Alignment where
  /-- By their first slots. -/
  | left
  /-- By their last slots. -/
  | right
  /-- By whichever end is met first. -/
  | first
  deriving DecidableEq

namespace Alignment

instance : Inhabited Alignment := ⟨left⟩

def name : Alignment → String
  | left => "left"
  | right => "right"
  | first => "first"

def all : List Alignment := [left, right, first]

def ofName? (name : String) : Option Alignment := all.find? fun a => a.name == name

def parse (text : String) : Except Fault Alignment :=
  match ofName? (String.ofList ((trimBoth text.toList).map Char.toLower)) with
  | some a => .ok a
  | none => .error (.unknownAlignment text)

theorem ofName?_name (a : Alignment) : ofName? a.name = some a := by cases a <;> decide

end Alignment

end Timetable
