import Timetable.Frontier
import Timetable.Schedule.Insert
import Timetable.Word

/-!
# Inserting at a frontier

Operations are put at or after a slot `start` without moving anything that lies before the
frontier. Each one lands at the later of `start` and the frontier of its resources, and moves the
frontier of its resources behind itself. So that later operations on those resources stay behind the
new ones, empty slots are put in before the earliest of them. The rest of the frontier moves along.

The numbers of slots stay below `slotLimit`, as there is no room for more slots in any memory. The
values that move along are any words, and their sums depend on the build.

* `Schedule.landings`: where the operations go, and the frontier behind them.
* `Frontier.moveAlong`: the rest of the frontier.
* `Schedule.makeRoom`: the empty slots.
* `Schedule.insertAtFrontier`: the edit, with the new frontier as its answer.
-/

namespace Timetable

/-- The values of the frontier beyond `place` moved by `n` slots, except those of resources of
`late`. -/
def Frontier.moveAlong (build : Build) (frontier late : Frontier) (place n : Nat) :
    Except Fault Frontier :=
  let moves r v := !late.contains r && v > place
  if frontier.entries.any fun e => moves e.1 e.2 && build.stops (e.2 + n) then .error .overflow
  else .ok (frontier.mapValues fun r v => if moves r v then word (v + n) else v)

namespace Schedule

variable {ω : Type}

/-- Keeps the slots of an edit that succeeded; after a failure the schedule is as it was. -/
def commit {α : Type} (s : Schedule ω) (edit : Except Fault (Schedule ω × α)) : Outcome ω α :=
  match edit with
  | .ok (scratch, a) => ⟨{ s with slots := scratch.slots }, .ok a⟩
  | .error e => ⟨s, .error e⟩

/-- How many slots are missing for every resource of `late` to come at or after its value in
`early`. -/
def shortfall (early late : Frontier) : Nat :=
  late.entries.foldl (fun n e => max n (early.getD e.1 0 - e.2)) 0

/-- The schedule and the frontier with `shortfall early late` empty slots before the least value of
`late`. Values of `early` beyond that place move along, except those of resources of `late`. -/
def makeRoom (build : Build) (s : Schedule ω) (early late : Frontier) :
    Except Fault (Schedule ω × Frontier) :=
  match late.values.min? with
  | none => .ok (s, early)
  | some place =>
    match shortfall early late with
    | 0 => .ok (s, early)
    | n => do
      let moved ← early.moveAlong build late place n
      let slots := s.slots.take place ++ List.replicate n Slot.empty ++ s.slots.drop place
      return ({ s with slots }, moved)

variable [Operation ω]

/-- The slot of each operation, and the frontier behind all of them. -/
def landings (start : Nat) : List ω → Frontier → List (Nat × ω) × Frontier
  | [], frontier => ([], frontier)
  | op :: ops, frontier =>
    let rs := resources op
    let landing := rs.foldl (fun at_ r => max at_ (frontier.getD r 0)) start
    let moved := rs.foldl (fun f r => f.insert r (max (f.getD r 0) (landing + 1))) frontier
    let (later, final) := landings start ops moved
    ((landing, op) :: later, final)

def pushEach (s : Schedule ω) : List (Nat × ω) → Except Fault (Schedule ω)
  | [] => .ok s
  | (index, op) :: rest => do
    let s' ← s.pushAt index op
    s'.pushEach rest

def touchedBy (ops : List ω) : SortedSet Resource := .ofList (ops.flatMap resources)

/-- Refuses a frontier that has already passed `start` on one of the resources. -/
def checkFrontier (frontier : Frontier) (start : Nat) : List Resource → Except Fault Unit
  | [] => .ok ()
  | r :: rs =>
    if frontier.getD r 0 > start then .error (.frontierPassed r (frontier.getD r 0) start)
    else checkFrontier frontier start rs

/-- A bound on the numbers of slots. A slot takes up memory, of which less than this can be had at
once. -/
def slotLimit : Nat := Nat.pow 2 63

/-- The edit once the operations are known to be sound: room is made, then each operation is added
to its slot. There has to be a slot for the last one. In a word the number of slots up to there may
even be zero, and there is no build that goes on from that. -/
def insertLanded (build : Build) (s : Schedule ω) (ops : List ω) (start : Nat)
    (frontier : Frontier) : Except Fault (Schedule ω × Frontier) :=
  let late := nextUses s.slots (touchedBy ops).toList start
  let (landed, early) := landings start ops frontier
  let needed := landed.foldl (fun n e => max n (e.1 + 1)) 0
  if needed < slotLimit then do
    let (roomy, moved) ← s.makeRoom build early late
    let edited ← (roomy.padTo needed).pushEach landed
    return (edited, moved)
  else .error .overflow

/-- Inserts a bundle at `start` behind a frontier. The answer is the frontier behind it. -/
def insertAtFrontier (build : Build) (s : Schedule ω) (bundle : Bundle ω) (start : Nat)
    (frontier : Frontier) : Outcome ω Frontier :=
  let ops := bundle.operations
  if ops.isEmpty then ⟨s, .ok frontier⟩
  else
    s.commit do
      checkOperations ops
      checkFrontier frontier start (touchedBy ops).toList
      s.insertLanded build ops start frontier

end Schedule

end Timetable
