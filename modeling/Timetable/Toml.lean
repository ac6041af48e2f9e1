/-!
# TOML documents

A document is a list of statements: a header opens a table, or one more table of an array of tables,
and an entry puts a value under a key of the table that is open. Keys with dots reach into tables
below it. Which tables a statement may enter or open again depends on how they came about.

* `Toml`: the values.
* `Toml.Statement`: what a line of a document states.
* `Toml.ofStatements`: the members of the table that the statements describe.
-/

namespace Timetable

/-- How a table came about. -/
inductive Toml.Origin where
  /-- Through its own header. -/
  | header
  /-- Through the header of a table below it. -/
  | path
  /-- Through a key with dots. -/
  | dotted
  deriving DecidableEq

/-- A value of a document. -/
inductive Toml where
  /-- A string. -/
  | text (value : String)
  /-- A number, a truth value or a time. Its value is not kept. -/
  | other
  /-- An array that is written as a value. -/
  | array (items : List Toml)
  /-- A table that is written as a value; nothing can be added to it. -/
  | inlineTable (members : List (String × Toml))
  /-- A table that statements fill. -/
  | table (origin : Toml.Origin) (members : List (String × Toml))
  /-- The members of each table of an array of tables. -/
  | tables (rows : List (List (String × Toml)))

namespace Toml

/-- The values of a table under their keys. -/
abbrev Members := List (String × Toml)

def replace (key : String) (value : Toml) (members : Members) : Members :=
  members.map fun m => if m.1 = key then (key, value) else m

/-- What to do with the table that a path leads to. -/
abbrev Edit := Origin → Members → Option Members

/-- The members with an edit made in the table that a path leads to. Tables that are missing on the
way are made with the given origin. A table with a header is closed to dotted keys, and of an array
of tables the last one counts. -/
def editAt (made : Origin) (edit : Edit) : List String → Edit
  | [], origin, members => edit origin members
  | key :: path, _, members =>
    match members.lookup key with
    | none => do
      let inner ← editAt made edit path made []
      return members ++ [(key, .table made inner)]
    | some (.table origin inner) =>
      if made = .dotted && origin = .header then none
      else do
        let inner ← editAt made edit path origin inner
        return replace key (.table origin inner) members
    | some (.tables rows) => do
      let last ← rows.getLast?
      let last ← editAt made edit path .header last
      return replace key (.tables (rows.dropLast ++ [last])) members
    | some _ => none

/-- Puts a new key into the table at the end of a dotted path. With dots in front of the key the
table has to be one that dotted keys made, without dots it must not be one. -/
def addEntry (path : List String) (key : String) (value : Toml) : Edit :=
  editAt .dotted put path
where
  /-- Puts the key into the table. -/
  put : Edit := fun origin members =>
    if (origin == .dotted) == path.isEmpty || (members.lookup key).isSome then none
    else some (members ++ [(key, value)])

/-- Opens the table of a header, which nothing but headers of tables below it may have made. -/
def openTable (key : String) : Edit := fun _ members =>
  match members.lookup key with
  | none => some (members ++ [(key, .table .header [])])
  | some (.table .path inner) => some (replace key (.table .header inner) members)
  | some _ => none

/-- Adds a table to an array of tables, which is made where it is missing. -/
def openRow (key : String) : Edit := fun _ members =>
  match members.lookup key with
  | none => some (members ++ [(key, .tables [[]])])
  | some (.tables rows) => some (replace key (.tables (rows ++ [[]])) members)
  | some _ => none

/-- A key with dots: the tables on the way, and the last part. -/
structure KeyPath where
  path : List String
  key : String

/-- What a line of a document states. -/
inductive Statement where
  /-- A value under a key. -/
  | entry (place : KeyPath) (value : Toml)
  /-- The header of a table. -/
  | table (place : KeyPath)
  /-- The header of one more table of an array. -/
  | row (place : KeyPath)

/-- The members of the whole document after some statements, and the path of the open table. -/
structure Draft where
  members : Members := []
  current : List String := []

/-- The draft after one more statement. -/
def Draft.add (d : Draft) : Statement → Option Draft
  | .entry k value => do
    let members ← editAt .path (addEntry k.path k.key value) d.current .header d.members
    return { d with members }
  | .table k => do
    let members ← editAt .path (openTable k.key) k.path .header d.members
    return ⟨members, k.path ++ [k.key]⟩
  | .row k => do
    let members ← editAt .path (openRow k.key) k.path .header d.members
    return ⟨members, k.path ++ [k.key]⟩

/-- The members that the statements describe, unless one contradicts an earlier one. -/
def ofStatements (statements : List Statement) : Option Members :=
  (statements.foldlM Draft.add {}).map Draft.members

def ofEntries (entries : List (KeyPath × Toml)) : Option Toml :=
  (ofStatements (entries.map fun e => .entry e.1 e.2)).map .inlineTable

end Toml

end Timetable
