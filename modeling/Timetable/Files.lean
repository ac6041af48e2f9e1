/-!
# Files

What a program needs to do with files, whatever keeps them. A path is text with slashes.

* `FileError`: why a file cannot be read or written.
* `Files`: reading, writing and making directories, as actions of a monad.
* `FileTree`: files kept in memory, and `FileTree.access`, the actions on them.
-/

namespace Timetable

/-- Why a file cannot be read or written. -/
inductive FileError where
  /-- There is nothing of the name. -/
  | missing
  /-- Something on the way is not a directory. -/
  | notDirectory
  /-- A directory stands where a file is needed. -/
  | isDirectory
  /-- A file stands where a directory is needed. -/
  | inTheWay
  /-- The path, or a name in it, is too long. -/
  | nameTooLong
  /-- The file does not hold text. -/
  | notText
  /-- Anything else, in the words of whatever keeps the files. -/
  | other (reason : String)
  deriving DecidableEq

def FileError.message : FileError → String
  | missing => "No such file or directory (os error 2)"
  | notDirectory => "Not a directory (os error 20)"
  | isDirectory => "Is a directory (os error 21)"
  | inTheWay => "File exists (os error 17)"
  | nameTooLong => "File name too long (os error 36)"
  | notText => "stream did not contain valid UTF-8"
  | other reason => reason

/-- Actions on files. -/
structure Files (m : Type → Type) where
  /-- The text of the file at a path. -/
  read : String → m (Except FileError String)
  /-- Makes a directory, and those around it. It is no error if it is there. -/
  makeDirectory : String → m (Except FileError Unit)
  /-- Writes a file in an existing directory. -/
  write : String → String → m (Except FileError Unit)

/-- Files in memory. A place is told by the names on the way to it. With a file or a directory,
those around it are there as well. -/
structure FileTree where
  /-- Where relative paths start. -/
  workingDirectory : List String := []
  /-- Directories that are there although no file may be in them. -/
  directories : List (List String) := []
  /-- The text of each file under its place. -/
  files : List (List String × String) := []

namespace FileTree

/-- What stands at a place of the tree. -/
inductive Found where
  | file (text : String)
  | directory

/-- What the names lead to. -/
def found? (t : FileTree) (names : List String) : Option Found :=
  match t.files.lookup names with
  | some text => some (.file text)
  | none =>
    let places := t.workingDirectory :: t.directories ++ t.files.map Prod.fst
    if places.any names.isPrefixOf then some .directory else none

def parts (path : String) : List String := path.splitOn "/"

/-- The names that the parts of a path lead to from a directory, and what is there. Only the last
name may be missing. -/
def locate (t : FileTree) (here : List String) :
    List String → Except FileError (List String × Option Found)
  | [] => .ok (here, some .directory)
  | part :: rest =>
    if part = "" || part = "." then t.locate here rest
    else if part = ".." then t.locate here.dropLast rest
    else if part.utf8ByteSize > 255 then .error .nameTooLong
    else
      match t.found? (here ++ [part]) with
      | some .directory => t.locate (here ++ [part]) rest
      | some (.file text) =>
        if rest.isEmpty then .ok (here ++ [part], some (.file text)) else .error .notDirectory
      | none => if rest.isEmpty then .ok (here ++ [part], none) else .error .missing

/-- Where the parts of a path start: at the root behind a slash, else in the working directory. -/
def origin (t : FileTree) (path : String) : List String :=
  if path.startsWith "/" then [] else t.workingDirectory

/-- The names that a path leads to, and what is there. -/
def resolve (t : FileTree) (path : String) : Except FileError (List String × Option Found) :=
  if path.utf8ByteSize > 4095 then .error .nameTooLong
  else t.locate (t.origin path) (parts path)

def read (t : FileTree) (path : String) : Except FileError String := do
  match ← t.resolve path with
  | (_, some (.file text)) => return text
  | (_, some .directory) => throw .isDirectory
  | (_, none) => throw .missing

/-- The tree with the directories that the parts of a path name, as far as they are missing. -/
def makeDirectories (t : FileTree) (here : List String) : List String → Except FileError FileTree
  | [] => .ok t
  | part :: rest =>
    if part = "" || part = "." then t.makeDirectories here rest
    else if part = ".." then t.makeDirectories here.dropLast rest
    else if part.utf8ByteSize > 255 then .error .nameTooLong
    else
      match t.found? (here ++ [part]) with
      | some .directory => t.makeDirectories (here ++ [part]) rest
      | some (.file _) => .error (if rest.isEmpty then .inTheWay else .notDirectory)
      | none =>
        let made := { t with directories := (here ++ [part]) :: t.directories }
        made.makeDirectories (here ++ [part]) rest

/-- The tree with a directory at a path, and those around it. -/
def makeDirectory (t : FileTree) (path : String) : Except FileError FileTree :=
  t.makeDirectories (t.origin path) (parts path)

def write (t : FileTree) (path text : String) : Except FileError FileTree := do
  match ← t.resolve path with
  | (_, some .directory) => throw .isDirectory
  | (names, _) => return { t with files := (names, text) :: t.files.filter (·.1 ≠ names) }

/-- Replaces the tree by what an edit makes of it. -/
def edit (f : FileTree → Except FileError FileTree) : StateM FileTree (Except FileError Unit) := do
  match f (← get) with
  | .ok t => set t; return .ok ()
  | .error e => return .error e

/-- The actions on a tree. -/
def access : Files (StateM FileTree) where
  read path := do return (← get).read path
  makeDirectory path := edit (·.makeDirectory path)
  write path text := edit (·.write path text)

end FileTree

end Timetable
