import Timetable.Proofs.Renaming.Thorough
import Timetable.Proofs.Schedule.Placement
import Timetable.Workload

/-!
# What a workload builds

A workload is built from the inside out: the schedule of a body is finished before the instruction
around it is made. So all slots are sound and all instructions are made in the ordinary ways, at
whatever depth they stand.

* `Schedule.ofBundle_eq_ok`: the schedule of a bundle holds just the operations of the bundle.
* `Workload.made_of_instruction`, `Workload.made_of_bundles`: what becomes of jobs and entries.
* `Workload.made_of_build`: what becomes of a workload.
-/

namespace Timetable

/-- The schedule of a bundle is sound and holds just the operations of the bundle. -/
theorem Schedule.ofBundle_eq_ok {ω : Type} [Operation ω] {bundle : Bundle ω} (hb : bundle.Sound)
    {strategy : Strategy} {s : Schedule ω} (h : Schedule.ofBundle bundle strategy = .ok s) :
    s.Sound ∧ s.operations.Perm bundle.operations := by
  have hempty : ({} : Schedule ω).Sound := fun slot hslot => nomatch hslot
  cases hans : (({} : Schedule ω).append bundle strategy).answer with
  | error e =>
    rw [ofBundle, hans] at h
    cases h
  | ok next =>
    rw [ofBundle, hans] at h
    cases h
    obtain ⟨hsound, hadds⟩ := adds_insert hempty hb hans
    exact ⟨hsound, hadds.operations_perm⟩

namespace Workload

/-- More keys make no difference to how an instruction has been made. -/
theorem made_addKeys {op : Instruction} (h : op.Made) (reads writes : List Key) :
    (addKeys op reads writes).Made := by
  have hreads : (reads.foldl Instruction.reading op).Made :=
    List.foldlRecOn reads _ h fun _ ih k _ => .reading k ih
  exact List.foldlRecOn writes _ hreads fun _ ih k _ => .writing k ih

/-- The finished slots of the bundle are sound, and all of its operations are made in the ordinary
ways. -/
def BundleMade (b : Bundle Instruction) : Prop := b.Sound ∧ ∀ op ∈ b.operations, op.Made

theorem made_of_scheduleOf {strategy : Strategy} {parts : List (Bundle Instruction)}
    {s : Schedule Instruction} (hparts : ∀ part ∈ parts, BundleMade part)
    (h : scheduleOf strategy parts = .ok s) : s.Sound ∧ ∀ op ∈ s.operations, op.Made := by
  have hb : (Bundle.sequence parts).Sound :=
    Bundle.sound_sequence fun part hpart => (hparts part hpart).1
  obtain ⟨hs, hperm⟩ := Schedule.ofBundle_eq_ok hb (mapError_eq_ok_iff.1 h)
  refine ⟨hs, fun op hop => ?_⟩
  rw [hperm.mem_iff, Bundle.operations_sequence] at hop
  obtain ⟨part, hpart, hop⟩ := List.mem_flatMap.1 hop
  exact (hparts part hpart).2 op hop

/-! The instruction around a body is made when the schedule of the body has been built, so jobs and
entries go together. -/

mutual

theorem made_of_instruction {strategy : Strategy} :
    ∀ (job : Job Entry) {op : Instruction}, instruction strategy job = .ok op → op.Made
  | ⟨name, _, reads, writes, some entries⟩, op, h => by
    rw [instruction] at h
    obtain ⟨parts, hparts, h⟩ := bind_eq_ok_iff.1 h
    obtain ⟨inner, hinner, h⟩ := bind_eq_ok_iff.1 h
    cases h
    obtain ⟨hsound, hmade⟩ := made_of_scheduleOf (made_of_bundles entries hparts) hinner
    have hslots : ∀ slot ∈ inner.slots, ∀ o ∈ slot.operations, o.Made :=
      fun slot hslot o ho => hmade o (List.mem_flatMap.2 ⟨slot, hslot, ho⟩)
    exact made_addKeys (.wrap name (b := ⟨inner.slots, none⟩) hsound hslots) reads writes
  | ⟨name, resources, reads, writes, none⟩, op, h => by
    rw [instruction] at h
    split at h
    · cases h
    · cases h
      exact made_addKeys (.plain name resources) reads writes

theorem made_of_instructions {strategy : Strategy} :
    ∀ (jobs : List (Job Entry)) {ops : List Instruction},
      instructions strategy jobs = .ok ops → ∀ op ∈ ops, op.Made
  | [], ops, h => by
    cases h
    exact fun op hop => nomatch hop
  | job :: jobs, ops, h => by
    rw [instructions] at h
    obtain ⟨first, hfirst, h⟩ := bind_eq_ok_iff.1 h
    obtain ⟨rest, hrest, h⟩ := bind_eq_ok_iff.1 h
    cases h
    exact List.forall_mem_cons.2 ⟨made_of_instruction job hfirst, made_of_instructions jobs hrest⟩

theorem made_of_bundleOf {strategy : Strategy} :
    ∀ (entry : Entry) {part : Bundle Instruction},
      bundleOf strategy entry = .ok part → BundleMade part
  | .job job, part, h => by
    rw [bundleOf] at h
    obtain ⟨op, hop, h⟩ := bind_eq_ok_iff.1 h
    cases h
    exact ⟨Bundle.sound_operation op, List.forall_mem_singleton.2 (made_of_instruction job hop)⟩
  | .slot jobs, part, h => by
    rw [bundleOf] at h
    obtain ⟨ops, hops, h⟩ := bind_eq_ok_iff.1 h
    obtain ⟨slot, hslot, h⟩ := bind_eq_ok_iff.1 h
    cases h
    obtain ⟨hnd, rfl⟩ := Slot.ofOperations_eq_ok_iff.1 (mapError_eq_ok_iff.1 hslot)
    refine ⟨Bundle.sound_slot (Slot.sound_ofApart hnd), fun op hop => ?_⟩
    obtain ⟨item, hitem, hop⟩ := List.mem_flatMap.1 hop
    rw [List.mem_singleton.1 hitem] at hop
    exact made_of_instructions jobs hops op hop

theorem made_of_bundles {strategy : Strategy} :
    ∀ (entries : List Entry) {parts : List (Bundle Instruction)},
      bundles strategy entries = .ok parts → ∀ part ∈ parts, BundleMade part
  | [], parts, h => by
    cases h
    exact fun part hpart => nomatch hpart
  | entry :: entries, parts, h => by
    rw [bundles] at h
    obtain ⟨first, hfirst, h⟩ := bind_eq_ok_iff.1 h
    obtain ⟨rest, hrest, h⟩ := bind_eq_ok_iff.1 h
    cases h
    exact List.forall_mem_cons.2 ⟨made_of_bundleOf entry hfirst, made_of_bundles entries hrest⟩

end

/-- The schedule of a workload is sound, and its instructions are made in the ordinary ways. -/
theorem made_of_build {strategy : Strategy} {entries : List Entry} {s : Schedule Instruction}
    (h : build strategy entries = .ok s) : s.Sound ∧ ∀ op ∈ s.operations, op.Made := by
  obtain ⟨parts, hparts, h⟩ := bind_eq_ok_iff.1 h
  exact made_of_scheduleOf (made_of_bundles entries hparts) h

end Workload

end Timetable
