import Timetable.Merge.Tetris
import Timetable.Merge.Zip
import Timetable.UnionFind

/-!
# Independent parts of a schedule

Resources that some operation uses together belong together, and so do resources linked by a chain
of such operations. The classes are the independent resource sets, and a schedule can be factored
into one schedule for each of them, on the same slots.

* `independentResources`: the classes, in the order of their least resources.
* `factorSlots?`: the slots of each factor, where there is not just one class.
* `Schedule.factorize`, `Schedule.zipAll`, `Schedule.tetrisAll`: the same for schedules.
-/

namespace Timetable

variable {ω : Type} [Operation ω]

/-- Joins the first resource of an operation with each other one of it; resources are known by
their places in the list. -/
def joinResources (known : List Resource) (u : UnionFind) (op : ω) : UnionFind :=
  match (resources op).filterMap fun r => known.findIdx? (· == r) with
  | [] => u
  | first :: others => others.foldl (fun u other => u.union first other) u

/-- Puts each resource to the class of its root; a new root opens a new class at the end. -/
def classify (u : UnionFind) (classes : List (Nat × SortedSet Resource)) :
    List (Resource × Nat) → List (Nat × SortedSet Resource)
  | [] => classes
  | (r, i) :: rest =>
    let (root, u) := u.find i
    let classes :=
      if classes.any fun c => c.1 == root then
        classes.map fun c => if c.1 == root then (c.1, c.2.insert r) else c
      else classes ++ [(root, .ofList [r])]
    classify u classes rest

/-- The classes of resources that are linked by operations, in the order of their least members. -/
def independentResources (slots : List (Slot ω)) : List (SortedSet Resource) :=
  let known := (SortedSet.ofList (slots.flatMap Slot.resourcesInUse)).toList
  let ops := slots.flatMap Slot.operations
  let forest := ops.foldl (joinResources known) (UnionFind.ofSize known.length)
  (classify forest [] known.zipIdx).map Prod.snd

/-- The slots cut down to each class, unless there is exactly one class. -/
def factorSlots? (slots : List (Slot ω)) : Option (List (List (Slot ω))) :=
  match independentResources slots with
  | [_] => none
  | classes => some (classes.map fun c => slots.map fun slot => slot.project c.toList)

namespace Schedule

/-- The factors of a schedule. A schedule of one class is its own only factor, and one without
resources has none. -/
def factorize (s : Schedule ω) : List (Schedule ω) :=
  match factorSlots? s.slots with
  | none => [s]
  | some factors => factors.map fun slots => { s with slots }

/-- The schedules laid on top of each other, without an acceptance rule. -/
def zipAll (schedules : List (Schedule ω)) (align : Alignment) : Except Fault (Schedule ω) :=
  (zip (schedules.map slots) align).map ofSlots

/-- The schedules closely one after the other, without an acceptance rule. -/
def tetrisAll (schedules : List (Schedule ω)) (align : Alignment) : Except Fault (Schedule ω) :=
  (tetrisConcat (schedules.map slots) align).map ofSlots

end Schedule

end Timetable
