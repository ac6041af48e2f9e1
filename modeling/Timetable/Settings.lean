import Timetable.Strategy
import Timetable.Toml.Reader
import Timetable.Toml.Writer

/-!
# Settings

The settings say what a command does where its command line leaves it open. They are kept in a TOML
file. A file that cannot be read as settings counts as empty, and what a file does not set has its
default; what else stands in it does not matter.

* `Settings`: the three settings.
* `Settings.parse`, `Settings.render`: from the text of a file and back.
-/

namespace Timetable

/-- What a command does where its command line leaves it open. -/
structure Settings where
  /-- How operations are inserted. -/
  strategy : Strategy := .earliest
  /-- How schedules are lined up. -/
  alignment : Alignment := .left
  /-- Which events are logged. -/
  logLevel : String := "warn"
  deriving DecidableEq

namespace Settings

/-- Whether a value has no parts. -/
def isHollow : Toml → Bool
  | .array items => items.isEmpty
  | .inlineTable members => members.isEmpty
  | .table _ members => members.isEmpty
  | .tables rows => rows.isEmpty
  | _ => false

/-- What the value names: a string does, and so does a table whose one key stands before something
without parts. -/
def readName {α : Type} (ofName? : String → Option α) : Toml → Option α
  | .text name => ofName? name
  | .inlineTable [(name, value)] => if isHollow value then ofName? name else none
  | .table _ [(name, value)] => if isHollow value then ofName? name else none
  | _ => none

def readText : Toml → Option String
  | .text value => some value
  | _ => none

/-- What a member of a document sets, or the default where the member is missing. -/
def readMember {α : Type} (members : Toml.Members) (key : String) (fallback : α)
    (read : Toml → Option α) : Option α :=
  match members.lookup key with
  | some value => read value
  | none => some fallback

/-- The settings in a document. -/
def ofMembers? (members : Toml.Members) : Option Settings := do
  let fallback : Settings := {}
  let strategy ← readMember members "default_strategy" fallback.strategy
    (readName Strategy.ofName?)
  let alignment ← readMember members "default_alignment" fallback.alignment
    (readName Alignment.ofName?)
  let logLevel ← readMember members "log_level" fallback.logLevel readText
  return { strategy, alignment, logLevel }

def parse (text : String) : Settings := ((Toml.read? text).bind ofMembers?).getD {}

def line (key value : String) : String := key ++ " = " ++ Toml.quote value ++ "\n"

def render (s : Settings) : String :=
  line "default_strategy" s.strategy.name ++ line "default_alignment" s.alignment.name ++
    line "log_level" s.logLevel

end Settings

end Timetable
