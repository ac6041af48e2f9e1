import Timetable.Schedule.Insert

/-!
# Filling the free space of a range

Operations are written into the slots of a range. A cursor walks forward: each operation goes into
the first slot at or after that of the operation before it which takes it. What is left over when
the range is used up is inserted at the end of the range, each operation as early as it can go.
-/

namespace Timetable.Schedule

variable {ω : Type} [Operation ω]

/-- The first slot from `i` up to but without `stop` that takes the operation. -/
def firstFit? (s : Schedule ω) (op : ω) (i stop : Nat) : Option Nat :=
  (List.range' i (stop - i)).find? fun j => s.fits j op

/-- Writes operations into the slots from `i` up to but without `stop`. The answer lists the
operations that are left over. -/
def fillRange (s : Schedule ω) (i stop : Nat) : List ω → Outcome ω (List ω)
  | [] => ⟨s, .ok []⟩
  | op :: ops =>
    match s.firstFit? op i stop with
    | none => ⟨s, .ok (op :: ops)⟩
    | some j =>
      match s.pushAt j op with
      | .error e => ⟨s, .error e⟩
      | .ok s' => s'.fillRange j stop ops

/-- Writes a bundle into the free space from `start` up to but without `stop`. The answer is `stop`
when everything went in, else the cursor behind what was inserted there. -/
def insertIntoRange (s : Schedule ω) (bundle : Bundle ω) (start stop : Nat) : Outcome ω Nat :=
  if start > stop || stop > s.length then ⟨s, .error (.badRange start stop s.length)⟩
  else
    match checkOperations bundle.operations with
    | .error e => ⟨s, .error e⟩
    | .ok () =>
      let filled := s.fillRange start stop bundle.operations
      match filled.answer with
      | .error e => ⟨filled.left, .error e⟩
      | .ok [] => ⟨filled.left, .ok stop⟩
      | .ok rest => filled.left.insert stop (.ofList rest) .earliest

end Timetable.Schedule
