import Timetable.Proofs.Workload.Ownership

/-!
# Jobs with nothing below them

A job without a body has to name resources. A job with a body is given those of its body, and nobody
asks whether there are any: the body may be an empty workload, or hold nothing but such jobs. So the
instructions that act on nothing are those with no bare instruction at or below them, and they come
from the jobs with no job without a body at or below them. A workload in which there is one for
every job gives a schedule in which every operation acts on something.

* `Workload.InJob`, `Workload.Grounded`: what stands in the body of a job, and which jobs have a job
  without a body at or below them.
* `Workload.operations_build`: the operations of a schedule are the instructions of the jobs.
* `Workload.acts_iff_grounded`: which instructions act on something.
* `build_acts`: the same for the schedule of a workload at every depth.
-/

namespace Timetable

open Relation

namespace Workload

/-! ### Jobs -/

def Entry.jobs : Entry → List (Job Entry)
  | .slot jobs => jobs
  | .job j => [j]

def InJob (outer inner : Job Entry) : Prop :=
  ∃ entries, outer.body = some entries ∧ inner ∈ entries.flatMap Entry.jobs

/-- The job, or one below it, has no body. -/
def Grounded (job : Job Entry) : Prop := ∃ bare, ReflTransGen InJob job bare ∧ bare.body = none

/-! ### What becomes of jobs -/

variable {strategy : Strategy}

theorem operations_instructions {jobs : List (Job Entry)} {ops : List Instruction}
    (h : instructions strategy jobs = .ok ops) :
    ops.map .ok = jobs.map (instruction strategy) := by
  induction jobs generalizing ops with
  | nil =>
    cases h
    rfl
  | cons job jobs ih =>
    rw [instructions] at h
    obtain ⟨op, hop, h⟩ := bind_eq_ok_iff.1 h
    obtain ⟨rest, hrest, h⟩ := bind_eq_ok_iff.1 h
    cases h
    show Except.ok op :: rest.map .ok = _
    rw [List.map_cons, ih hrest, hop]

theorem operations_bundleOf {entry : Entry} {part : Bundle Instruction}
    (h : bundleOf strategy entry = .ok part) :
    part.operations.map .ok = entry.jobs.map (instruction strategy) := by
  cases entry with
  | job job =>
    rw [bundleOf] at h
    obtain ⟨op, hop, h⟩ := bind_eq_ok_iff.1 h
    cases h
    show [Except.ok op] = [instruction strategy job]
    rw [hop]
  | slot jobs =>
    rw [bundleOf] at h
    obtain ⟨ops, hops, h⟩ := bind_eq_ok_iff.1 h
    obtain ⟨slot, hslot, h⟩ := bind_eq_ok_iff.1 h
    cases h
    obtain ⟨-, rfl⟩ := Slot.ofOperations_eq_ok_iff.1 (mapError_eq_ok_iff.1 hslot)
    show (ops ++ []).map .ok = jobs.map (instruction strategy)
    rw [List.append_nil, operations_instructions hops]

theorem operations_bundles {entries : List Entry} {parts : List (Bundle Instruction)}
    (h : bundles strategy entries = .ok parts) :
    (parts.flatMap Bundle.operations).map .ok
      = (entries.flatMap Entry.jobs).map (instruction strategy) := by
  induction entries generalizing parts with
  | nil =>
    cases h
    rfl
  | cons entry entries ih =>
    rw [bundles] at h
    obtain ⟨part, hpart, h⟩ := bind_eq_ok_iff.1 h
    obtain ⟨rest, hrest, h⟩ := bind_eq_ok_iff.1 h
    cases h
    rw [List.flatMap_cons, List.flatMap_cons, List.map_append, List.map_append, ih hrest,
      operations_bundleOf hpart]

/-- The operations of the schedule of a workload are the instructions of its jobs. -/
theorem operations_build {entries : List Entry} {s : Schedule Instruction}
    (h : build strategy entries = .ok s) :
    (s.operations.map .ok).Perm ((entries.flatMap Entry.jobs).map (instruction strategy)) := by
  obtain ⟨parts, hparts, hs⟩ := bind_eq_ok_iff.1 h
  have hb : (Bundle.sequence parts).Sound :=
    Bundle.sound_sequence fun part hpart => (made_of_bundles entries hparts part hpart).1
  have hperm := (Schedule.ofBundle_eq_ok hb (mapError_eq_ok_iff.1 hs)).2
  rw [← operations_bundles hparts, ← Bundle.operations_sequence]
  exact hperm.map _

/-- The operations in the slots are the instructions of the jobs. -/
structure Fills (strategy : Strategy) (jobs : List (Job Entry)) (slots : List (Slot Instruction)) :
    Prop where
  exists_job : ∀ slot ∈ slots, ∀ op ∈ slot.operations,
    ∃ job ∈ jobs, instruction strategy job = .ok op
  exists_op : ∀ job ∈ jobs, ∃ slot ∈ slots, ∃ op ∈ slot.operations,
    instruction strategy job = .ok op

theorem fills_build {entries : List Entry} {s : Schedule Instruction}
    (h : build strategy entries = .ok s) :
    Fills strategy (entries.flatMap Entry.jobs) s.slots := by
  have hperm := operations_build h
  constructor
  · intro slot hslot op hop
    have hop : op ∈ s.operations := List.mem_flatMap.2 ⟨slot, hslot, hop⟩
    exact List.mem_map.1 (hperm.mem_iff.1 (List.mem_map_of_mem hop))
  · intro job hjob
    obtain ⟨op, hop, heq⟩ := List.mem_map.1 (hperm.mem_iff.2 (List.mem_map_of_mem hjob))
    obtain ⟨slot, hslot, hop⟩ := List.mem_flatMap.1 hop
    exact ⟨slot, hslot, op, hop, heq.symm⟩

/-- Keys make no difference to resources and body. -/
theorem addKeys_eq (op : Instruction) (reads writes : List Key) :
    (addKeys op reads writes).resources = op.resources ∧
      (addKeys op reads writes).body = op.body := by
  let P : Instruction → Prop := fun o => o.resources = op.resources ∧ o.body = op.body
  have hreads : P (reads.foldl Instruction.reading op) :=
    List.foldlRecOn reads (motive := P) _ ⟨rfl, rfl⟩ fun _ ih _ _ => ih
  exact List.foldlRecOn writes (motive := P) _ hreads fun _ ih _ _ => ih

/-- A job without a body becomes an instruction that acts on something. -/
theorem instruction_bare {job : Job Entry} {op : Instruction} (hjob : job.body = none)
    (h : instruction strategy job = .ok op) : op.body = none ∧ op.resources ≠ [] := by
  obtain ⟨name, resources, reads, writes, body⟩ := job
  cases hjob
  rw [instruction] at h
  split at h
  · cases h
  · rename_i hne
    cases h
    rw [(addKeys_eq _ _ _).1, (addKeys_eq _ _ _).2]
    exact ⟨rfl, by simpa using hne⟩

/-- A job with a body becomes an instruction around the instructions of the body. -/
theorem instruction_around {job : Job Entry} {entries : List Entry} {op : Instruction}
    (hjob : job.body = some entries) (h : instruction strategy job = .ok op) :
    ∃ slots, body? op = some slots ∧ Fills strategy (entries.flatMap Entry.jobs) slots := by
  obtain ⟨name, resources, reads, writes, body⟩ := job
  cases hjob
  rw [instruction] at h
  obtain ⟨parts, hparts, h⟩ := bind_eq_ok_iff.1 h
  obtain ⟨inner, hinner, h⟩ := bind_eq_ok_iff.1 h
  cases h
  refine ⟨inner.slots, congrArg (Option.map Body.slots) (addKeys_eq _ _ _).2, fills_build ?_⟩
  exact bind_eq_ok_iff.2 ⟨parts, hparts, hinner⟩

variable {job innerJob : Job Entry} {op inner : Instruction}

theorem body?_instruction (h : instruction strategy job = .ok op) :
    body? op = none ↔ job.body = none := by
  cases hjob : job.body with
  | none =>
    have hop : body? op = none := congrArg (Option.map Body.slots) (instruction_bare hjob h).1
    simp [hop]
  | some entries =>
    obtain ⟨slots, hop, -⟩ := instruction_around hjob h
    simp [hop]

/-- What stands below an instruction is the instruction of a job below. -/
theorem exists_job_below (h : instruction strategy job = .ok op)
    (hbelow : ReflTransGen InBody op inner) :
    ∃ innerJob, ReflTransGen InJob job innerJob ∧ instruction strategy innerJob = .ok inner := by
  induction hbelow with
  | refl => exact ⟨job, .refl, h⟩
  | @tail mid inner _ hstep ih =>
    obtain ⟨midJob, hmidJob, hmid⟩ := ih
    obtain ⟨slots, hbody, slot, hslot, hinner⟩ := hstep
    cases hjob : midJob.body with
    | none =>
      rw [(body?_instruction hmid).2 hjob] at hbody
      cases hbody
    | some entries =>
      obtain ⟨slots', hbody', hfills⟩ := instruction_around hjob hmid
      obtain rfl := Option.some.inj (hbody.symm.trans hbody')
      obtain ⟨innerJob, hin, hinst⟩ := hfills.exists_job slot hslot inner hinner
      exact ⟨innerJob, hmidJob.tail ⟨entries, hjob, hin⟩, hinst⟩

/-- The jobs below a job have become instructions below its instruction. -/
theorem exists_op_below (h : instruction strategy job = .ok op)
    (hbelow : ReflTransGen InJob job innerJob) :
    ∃ inner, ReflTransGen InBody op inner ∧ instruction strategy innerJob = .ok inner := by
  induction hbelow with
  | refl => exact ⟨op, .refl, h⟩
  | tail _ hstep ih =>
    obtain ⟨mid, hmid, hinst⟩ := ih
    obtain ⟨entries, hjob, hin⟩ := hstep
    obtain ⟨slots, hbody, hfills⟩ := instruction_around hjob hinst
    obtain ⟨slot, hslot, inner, hinner, hinst⟩ := hfills.exists_op _ hin
    exact ⟨inner, hmid.tail ⟨slots, hbody, slot, hslot, hinner⟩, hinst⟩

/-! ### Which instructions act on something -/

/-- An instruction acts on something if there is a bare one at or below it. -/
theorem acts_iff_bareBelow (h : instruction strategy job = .ok op) :
    op.resources ≠ [] ↔ ∃ bare, BareBelow op bare := by
  have hmade := made_of_instruction job h
  constructor
  · intro hne
    obtain ⟨r, hr⟩ := List.exists_mem_of_ne_nil _ hne
    obtain ⟨bare, hbare, -⟩ := hmade.mem_resources_iff.1 hr
    exact ⟨bare, hbare⟩
  · rintro ⟨bare, hbare⟩
    obtain ⟨innerJob, -, hinst⟩ := exists_job_below h hbare.1
    have hacts := (instruction_bare ((body?_instruction hinst).1 hbare.2) hinst).2
    obtain ⟨r, hr⟩ := List.exists_mem_of_ne_nil _ hacts
    exact List.ne_nil_of_mem (hmade.mem_resources_iff.2 ⟨bare, hbare, hr⟩)

/-- An instruction acts on something if there is a job without a body at or below its job. -/
theorem acts_iff_grounded (h : instruction strategy job = .ok op) :
    op.resources ≠ [] ↔ Grounded job := by
  rw [acts_iff_bareBelow h]
  constructor
  · rintro ⟨bare, hbelow, hbare⟩
    obtain ⟨innerJob, hjob, hinst⟩ := exists_job_below h hbelow
    exact ⟨innerJob, hjob, (body?_instruction hinst).1 hbare⟩
  · rintro ⟨innerJob, hjob, hbare⟩
    obtain ⟨bare, hbelow, hinst⟩ := exists_op_below h hjob
    exact ⟨bare, hbelow, (body?_instruction hinst).2 hbare⟩

end Workload

/-! ### Schedules -/

/-- What holds of every operation in the slots, at every depth, holds of everything below them. -/
theorem throughout_operations_iff {P : Instruction → Prop} {slots : List (Slot Instruction)} :
    Throughout (fun slot => ∀ op ∈ slot.operations, P op) slots ↔
      ∀ slot ∈ slots, ∀ op ∈ slot.operations, ∀ inner, ReflTransGen InBody op inner → P inner := by
  constructor
  · intro h
    induction h with
    | @intro slots here _ ih =>
      intro slot hslot op hop inner hbelow
      rcases hbelow.cases_head with rfl | ⟨mid, ⟨body, hbody, slot', hslot', hmid⟩, hbelow⟩
      · exact here slot hslot op hop
      · exact ih slot hslot op hop body hbody slot' hslot' mid hmid inner hbelow
  · have hbody : ∀ op : Instruction, (∀ inner, ReflTransGen InBody op inner → P inner) →
        ∀ body, body? op = some body →
          Throughout (fun slot => ∀ o ∈ slot.operations, P o) body := by
      intro op
      induction op using Instruction.body_induction with
      | step op ih =>
        intro h body hb
        obtain ⟨rule, hrule⟩ := Instruction.body?_eq.1 hb
        have hin : ∀ slot ∈ body, ∀ o ∈ slot.operations, InBody op o :=
          fun slot hslot o ho => ⟨body, hb, slot, hslot, ho⟩
        refine .intro (fun slot hslot o ho => h o (.single (hin slot hslot o ho))) ?_
        intro slot hslot o ho
        refine ih _ hrule slot hslot o ho fun inner hbelow => h inner ?_
        exact .head (hin slot hslot o ho) hbelow
    intro h
    exact .intro (fun slot hslot op hop => h slot hslot op hop op .refl)
      fun slot hslot op hop => hbody op (h slot hslot op hop)

open Workload

/-- **Operations act on something, but for those with nothing below them.** In the schedule that a
workload builds, at every depth, the operations that act on nothing are those with no bare operation
at or below them. All operations act on something just when all jobs of the workload, at every
depth, have a job without a body at or below them. -/
theorem build_acts {strategy : Strategy} {entries : List Entry} {s : Schedule Instruction}
    (h : build strategy entries = .ok s) :
    Throughout (fun slot => ∀ op ∈ slot.operations,
      op.resources = [] ↔ ¬∃ bare, BareBelow op bare) s.slots ∧
    (Throughout (fun slot => ∀ op ∈ slot.operations, op.resources ≠ []) s.slots ↔
      ∀ job ∈ entries.flatMap Entry.jobs, ∀ inner, ReflTransGen InJob job inner →
        Grounded inner) := by
  have hfills := fills_build h
  constructor
  · rw [throughout_operations_iff]
    intro slot hslot op hop inner hbelow
    obtain ⟨job, -, hjob⟩ := hfills.exists_job slot hslot op hop
    obtain ⟨innerJob, -, hinner⟩ := exists_job_below hjob hbelow
    rw [← acts_iff_bareBelow hinner, not_not]
  · rw [throughout_operations_iff]
    constructor
    · intro hacts job hjob innerJob hbelow
      obtain ⟨slot, hslot, op, hop, hinst⟩ := hfills.exists_op job hjob
      obtain ⟨inner, hbelow, hinner⟩ := exists_op_below hinst hbelow
      exact (acts_iff_grounded hinner).1 (hacts slot hslot op hop inner hbelow)
    · intro hgrounded slot hslot op hop inner hbelow
      obtain ⟨job, hjob, hinst⟩ := hfills.exists_job slot hslot op hop
      obtain ⟨innerJob, hbelow, hinner⟩ := exists_job_below hinst hbelow
      exact (acts_iff_grounded hinner).2 (hgrounded job hjob innerJob hbelow)

/-- A job around a slot of two jobs and a job around a third one. -/
theorem build_acts_two_deep :
    let a : Workload.Job Workload.Entry := { name := "a", resources := [.line 0] }
    let b : Workload.Job Workload.Entry := { name := "b", resources := [.line 1] }
    let c : Workload.Job Workload.Entry := { name := "c", resources := [.line 0] }
    let sub : Workload.Job Workload.Entry := { name := "sub", body := some [.job c] }
    let outer : Workload.Job Workload.Entry :=
      { name := "outer", body := some [.slot [a, b], .job sub] }
    ∃ s, Workload.build .inline [.job outer] = .ok s ∧
      Throughout (fun slot => ∀ op ∈ slot.operations, op.resources ≠ []) s.slots := by
  intro a b c sub outer
  have hbuilt : (Workload.build .inline [.job outer]).toOption.isSome = true := by decide +kernel
  have hjobs : ∀ inner, ReflTransGen InJob outer inner → inner ∈ [outer, a, b, sub, c] := by
    intro inner hbelow
    induction hbelow with
    | refl => exact List.mem_cons_self
    | @tail _ inner _ hstep ih =>
      obtain ⟨entries, hbody, hinner⟩ := hstep
      simp only [List.mem_cons, List.not_mem_nil, or_false] at ih
      rcases ih with rfl | rfl | rfl | rfl | rfl <;> cases hbody
      · have hinner : inner ∈ [a, b, sub] := hinner
        exact List.mem_cons_of_mem _ (List.mem_append_left [c] hinner)
      · exact List.mem_append_right [outer, a, b, sub] hinner
  have hsub : Grounded sub := ⟨c, .single ⟨[.job c], rfl, List.mem_singleton_self c⟩, rfl⟩
  have houter : Grounded outer :=
    ⟨a, .single ⟨[.slot [a, b], .job sub], rfl, List.mem_cons_self⟩, rfl⟩
  have hgrounded : ∀ job ∈ [outer, a, b, sub, c], Grounded job := by
    simp only [List.forall_mem_cons]
    exact ⟨houter, ⟨a, .refl, rfl⟩, ⟨b, .refl, rfl⟩, hsub, ⟨c, .refl, rfl⟩, nofun⟩
  cases hs : Workload.build .inline [.job outer] with
  | error e =>
    rw [hs] at hbuilt
    cases hbuilt
  | ok s =>
    refine ⟨s, rfl, (build_acts hs).2.2 (List.forall_mem_singleton.2 ?_)⟩
    exact fun inner hbelow => hgrounded inner (hjobs inner hbelow)

/-- The job around an empty body gets in, with an instruction that acts on nothing. -/
theorem build_idle :
    let block : Workload.Job Workload.Entry := { name := "block", body := some [] }
    ∃ s, Workload.build .inline [.job block] = .ok s ∧
      s.slots.map (fun slot => slot.operations.map fun op => (op.name, op.resources)) =
        [[("block", [])]] ∧
      ¬Throughout (fun slot => ∀ op ∈ slot.operations, op.resources ≠ []) s.slots := by
  intro block
  have hbuilt : (Workload.build .inline [.job block]).toOption.map
      (fun s => s.slots.map fun slot => slot.operations.map fun op => (op.name, op.resources)) =
        some [[("block", [])]] := by decide +kernel
  cases hs : Workload.build .inline [.job block] with
  | error e =>
    rw [hs] at hbuilt
    cases hbuilt
  | ok s =>
    rw [hs] at hbuilt
    have hslots : (s.slots.map fun slot => slot.operations.map fun op => (op.name, op.resources))
        = [[("block", [])]] := Option.some.inj hbuilt
    refine ⟨s, rfl, hslots, fun hacts => ?_⟩
    obtain ⟨slot, hslot, hops⟩ := List.mem_map.1 (hslots ▸ List.mem_singleton_self _)
    obtain ⟨op, hop, heq⟩ := List.mem_map.1 (hops ▸ List.mem_singleton_self _)
    exact hacts.here slot hslot op hop (Prod.ext_iff.1 heq).2

end Timetable
