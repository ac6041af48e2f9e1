import Timetable.Json.Reader
import Timetable.Workload

/-!
# Workload files

A workload file holds a JSON array of entries. A job is an object such as
`name`, `resources`, `reads`, `writes` and `body`, of which only the name has to be there, or an
array of these five in this order, cut short anywhere behind the name. A slot is an object with a
member `slot`. What reads as a slot is a slot; anything else has to read as a job. Members of other
names do not count, but one of these names must not occur twice.

* `Workload.readEntries`: the entries of a JSON array.
* `Workload.parse`: the workload of a text.
-/

namespace Timetable.Workload

def readText : Json → Option String
  | .string s => some s
  | _ => none

def readList {α : Type} (readItem : Json → Option α) : Json → Option (List α)
  | .array items => items.mapM readItem
  | _ => none

def readResource (j : Json) : Option Resource := do
  let text ← readText j
  (Resource.parse text).toOption

/-- The key that a value names. White space around it belongs to the name. -/
def readKey (j : Json) : Option Key := do
  let text ← readText j
  (Key.ofName text).toOption

/-- The members of a job that have been met. -/
structure Draft where
  name : Option String := none
  resources : Option (List Resource) := none
  reads : Option (List Key) := none
  writes : Option (List Key) := none
  body : Option (Option (List Entry)) := none

/-- The job that the members make up, if the name is among them. -/
def Draft.job (d : Draft) : Option (Job Entry) :=
  d.name.map fun name =>
    { name
      resources := d.resources.getD []
      reads := d.reads.getD []
      writes := d.writes.getD []
      body := d.body.getD none }

/-- Sets a member that has not been met before. -/
def once {α : Type} (slot : Option α) (value : Option α) : Option (Option α) :=
  if slot.isSome then none else value.map some

mutual

/-- The entry that a value is: a slot if it can be one, else a job. -/
def readEntry : Json → Option Entry
  | .object members =>
    match readSlotMembers members none with
    | some (some jobs) => some (.slot jobs)
    | _ => (readJobMembers members {}).bind fun d => d.job.map .job
  | .array items => (readJobItems items).map .job
  | _ => none

def readEntries : List Json → Option (List Entry)
  | [] => some []
  | item :: items => do
    let entry ← readEntry item
    let entries ← readEntries items
    return entry :: entries

/-- The jobs of a slot, found among the members of an object. -/
def readSlotMembers : List (String × Json) → Option (List (Job Entry)) →
    Option (Option (List (Job Entry)))
  | [], jobs => some jobs
  | (key, value) :: members, jobs =>
    if key = "slot" then do
      let jobs ← once jobs (readJobs value)
      readSlotMembers members jobs
    else readSlotMembers members jobs

def readJobs : Json → Option (List (Job Entry))
  | .array items => readJobList items
  | _ => none

def readJobList : List Json → Option (List (Job Entry))
  | [] => some []
  | item :: items => do
    let job ← readJob item
    let jobs ← readJobList items
    return job :: jobs

def readJob : Json → Option (Job Entry)
  | .object members => (readJobMembers members {}).bind Draft.job
  | .array items => readJobItems items
  | _ => none

/-- The members of a job, met one after the other. -/
def readJobMembers : List (String × Json) → Draft → Option Draft
  | [], d => some d
  | (key, value) :: members, d =>
    if key = "name" then do
      let name ← once d.name (readText value)
      readJobMembers members { d with name }
    else if key = "resources" then do
      let resources ← once d.resources (readList readResource value)
      readJobMembers members { d with resources }
    else if key = "reads" then do
      let reads ← once d.reads (readList readKey value)
      readJobMembers members { d with reads }
    else if key = "writes" then do
      let writes ← once d.writes (readList readKey value)
      readJobMembers members { d with writes }
    else if key = "body" then do
      let body ← once d.body (readBody value)
      readJobMembers members { d with body }
    else readJobMembers members d

/-- The body of a job; a null stands for no body. -/
def readBody : Json → Option (Option (List Entry))
  | .null => some none
  | .array items => (readEntries items).map some
  | _ => none

/-- The job of an array of up to five members in order. -/
def readJobItems : List Json → Option (Job Entry)
  | [name] => do
    return { name := ← readText name }
  | [name, resources] => do
    return { name := ← readText name, resources := ← readList readResource resources }
  | [name, resources, reads] => do
    return {
      name := ← readText name
      resources := ← readList readResource resources
      reads := ← readList readKey reads }
  | [name, resources, reads, writes] => do
    return {
      name := ← readText name
      resources := ← readList readResource resources
      reads := ← readList readKey reads
      writes := ← readList readKey writes }
  | [name, resources, reads, writes, body] => do
    return {
      name := ← readText name
      resources := ← readList readResource resources
      reads := ← readList readKey reads
      writes := ← readList readKey writes
      body := ← readBody body }
  | _ => none

end

def parse (text : String) : Option (List Entry) :=
  match Json.read? text with
  | some (.array items) => readEntries items
  | _ => none

end Timetable.Workload
