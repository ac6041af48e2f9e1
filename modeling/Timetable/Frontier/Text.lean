import Timetable.Frontier
import Timetable.Resource.Text

/-!
# Frontiers as text

An entry of a frontier is written `resource=index`. The resource ends at the first equals sign. The
index is a number of 64 bits, perhaps between white space.

* `Frontier.parse`: the frontier of a list of entries, or what is wrong with the first bad one.
-/

namespace Timetable.Frontier

open Text

/-- Why an entry is refused. -/
inductive EntryError where
  /-- There is no equals sign. -/
  | noEqualsSign (entry : String)
  /-- What follows the equals sign is not an index. -/
  | badIndex (entry : String)
  /-- What stands before the equals sign is not a resource. -/
  | badResource (error : Resource.TextError)
  deriving DecidableEq

def EntryError.message : EntryError → String
  | noEqualsSign entry => "Invalid input: expected resource=index, got '" ++ entry ++ "'"
  | badIndex entry => "Invalid input: invalid slot index in '" ++ entry ++ "'"
  | badResource error => "Invalid resource: " ++ error.message

/-- The resource and the index of an entry. Of two errors that of the index is reported. -/
def parseEntry (entry : String) : Except EntryError (Resource × Nat) :=
  match splitAtFirst '=' entry.toList with
  | none => .error (.noEqualsSign entry)
  | some (resource, index) =>
    match Decimal.readUnsigned? 64 (trimBoth index) with
    | none => .error (.badIndex entry)
    | some index =>
      match Resource.readToken resource with
      | .error error => .error (.badResource error)
      | .ok resource => .ok (resource, index)

/-- The frontier of the entries; of several entries with one resource the last one counts. -/
def parse (entries : List String) : Except EntryError Frontier :=
  (entries.mapM parseEntry).map .ofList

end Timetable.Frontier
