import Timetable.Instruction
import Timetable.Schedule.Insert
import Timetable.Resource.Text

/-!
# Workloads

A workload is a list of entries. An entry is a job, which becomes one operation, or a list of jobs
that are kept together in one slot. A job names its resources, or has a workload of its own as its
body; then it becomes an instruction that holds the schedule of the body, built with the same
strategy, and the resources that it names do not count.

* `Workload.Entry`, `Workload.Job`: the entries.
* `Workload.bundle`: what a workload puts into a schedule.
* `Workload.build`: the schedule of a workload.
-/

namespace Timetable.Workload

/-- One operation of a workload; `ε` is the type of the entries of its body. -/
structure Job (ε : Type) where
  name : String
  resources : List Resource := []
  reads : List Key := []
  writes : List Key := []
  body : Option (List ε) := none

/-- One entry of a workload. -/
inductive Entry where
  /-- Jobs that are kept together in one slot. -/
  | slot (jobs : List (Job Entry))
  /-- A job that goes where the strategy puts it. -/
  | job (job : Job Entry)

/-- Why a workload has no schedule. -/
inductive BuildError where
  /-- A job has neither a body nor resources. -/
  | noResources (name : String)
  /-- The schedule refuses an operation. -/
  | fault (fault : Fault)
  deriving DecidableEq

def BuildError.message : BuildError → String
  | .noResources name => "Invalid workload: operation '" ++ name ++ "' has no resources"
  | .fault f => "Schedule error: " ++ f.message

def addKeys (op : Instruction) (reads writes : List Key) : Instruction :=
  writes.foldl Instruction.writing (reads.foldl Instruction.reading op)

def scheduleOf (strategy : Strategy) (parts : List (Bundle Instruction)) :
    Except BuildError (Schedule Instruction) :=
  (Schedule.ofBundle (.sequence parts) strategy).mapError .fault

mutual

def instruction (strategy : Strategy) : Job Entry → Except BuildError Instruction
  | ⟨name, _, reads, writes, some entries⟩ => do
    let parts ← bundles strategy entries
    let inner ← scheduleOf strategy parts
    return addKeys (.wrap name ⟨inner.slots, none⟩) reads writes
  | ⟨name, resources, reads, writes, none⟩ =>
    if resources.isEmpty then .error (.noResources name)
    else .ok (addKeys { name, resources } reads writes)

def instructions (strategy : Strategy) : List (Job Entry) → Except BuildError (List Instruction)
  | [] => .ok []
  | job :: jobs => do
    let op ← instruction strategy job
    let ops ← instructions strategy jobs
    return op :: ops

def bundleOf (strategy : Strategy) : Entry → Except BuildError (Bundle Instruction)
  | .job job => do
    let op ← instruction strategy job
    return .operation op
  | .slot jobs => do
    let ops ← instructions strategy jobs
    let slot ← (Slot.ofOperations ops).mapError BuildError.fault
    return .slot slot

def bundles (strategy : Strategy) : List Entry → Except BuildError (List (Bundle Instruction))
  | [] => .ok []
  | entry :: entries => do
    let part ← bundleOf strategy entry
    let parts ← bundles strategy entries
    return part :: parts

end

/-- What a workload puts into a schedule. -/
def bundle (strategy : Strategy) (entries : List Entry) : Except BuildError (Bundle Instruction) :=
  (bundles strategy entries).map .sequence

/-- The schedule of a workload. -/
def build (strategy : Strategy) (entries : List Entry) :
    Except BuildError (Schedule Instruction) := do
  let parts ← bundles strategy entries
  scheduleOf strategy parts

end Timetable.Workload
