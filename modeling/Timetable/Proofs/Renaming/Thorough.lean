import Timetable.Proofs.Renaming.Carry
import Timetable.Proofs.Schedule.Insertion
import Timetable.Proofs.Schedule.NestedMatch
import Timetable.Proofs.Slot.Made

/-!
# Renaming reaches every body

Where the operations of some slot of a body come to overlap, renaming keeps the old body. Nobody
sees it: the instruction around the body acts on all resources of the body, so two of its own
resources have become one, and the slot that holds the instruction cannot be renamed either. So a
renaming that succeeds has renamed every body at every depth.

* `Instruction.Made`: the instructions that can be made.
* `Instruction.Owns`: an instruction acts on just the resources of its body.
* `Instruction.Made.throughout`: a map that keeps the resources of an instruction apart keeps the
  operations of all slots inside it apart.
* `rename_thorough`: when renaming fails, and what it gives otherwise.
-/

namespace Timetable

namespace Instruction

/-- The instructions that can be made: plain ones, those that hold a body of sound slots with such
instructions in them, and with more keys. -/
inductive Made : Instruction → Prop
  | plain (name : String) (rs : List Resource) : Made { name, resources := rs }
  | wrap (name : String) {b : Body Instruction} (sound : ∀ slot ∈ b.slots, slot.Sound)
      (made : ∀ slot ∈ b.slots, ∀ op ∈ slot.operations, Made op) : Made (.wrap name b)
  | reading (k : Key) {op : Instruction} (made : Made op) : Made (op.reading k)
  | writing (k : Key) {op : Instruction} (made : Made op) : Made (op.writing k)

/-- An instruction with a body acts on just the resources that are in use in the body, once on each
one. -/
def Owns (op : Instruction) : Prop :=
  ∀ b, op.body = some b → op.resources.Nodup ∧
    ∀ r, r ∈ op.resources ↔ ∃ slot ∈ b.slots, r ∈ slot.resourcesInUse

theorem mem_resources_wrap {name : String} {b : Body Instruction} {r : Resource} :
    r ∈ (wrap name b).resources ↔ ∃ slot ∈ b.slots, r ∈ slot.resourcesInUse :=
  SortedSet.mem_ofList.trans List.mem_flatMap

theorem Made.owns {op : Instruction} (h : op.Made) : op.Owns := by
  induction h with
  | plain name rs => exact fun b hb => nomatch hb
  | wrap name _ _ _ =>
    rintro b ⟨⟩
    exact ⟨(SortedSet.increasing _).nodup, fun r => mem_resources_wrap⟩
  | reading k _ ih => exact ih
  | writing k _ ih => exact ih

variable {f : Resource → Resource} {rule : Option Nat → Option Nat}

/-- The resources of an instruction are among those of its slot. -/
theorem resources_subset {slot : Slot Instruction} (hs : slot.Sound) {op : Instruction}
    (hop : op ∈ slot.operations) :
    {r | r ∈ op.resources} ⊆ {r | r ∈ slot.resourcesInUse} := by
  intro r hr
  exact hs.mem_resourcesInUse_iff.2 (List.mem_flatMap.2 ⟨op, hop, hr⟩)

/-- Inside an instruction whose resources stay different, operations stay apart: the resources of
every slot of the body are among those of the instruction. -/
theorem Made.throughout {op : Instruction} (h : op.Made) (hf : Set.InjOn f {r | r ∈ op.resources}) :
    ∀ inner, body? op = some inner →
      Throughout (fun slot => slot.Sound ∧ slot.Apart f ∧ ∀ o ∈ slot.operations, o.Owns) inner := by
  induction h with
  | plain name rs => exact fun inner hinner => nomatch hinner
  | @wrap name b sound made ih =>
    rintro inner ⟨⟩
    have hslots : ∀ slot ∈ b.slots, Set.InjOn f {r | r ∈ slot.resourcesInUse} := by
      intro slot hslot
      exact hf.mono fun r hr => mem_resources_wrap.2 ⟨slot, hslot, hr⟩
    refine .intro (fun slot hslot => ⟨sound slot hslot, ?_, ?_⟩) fun slot hslot o ho => ?_
    · exact (sound slot hslot).apart_iff.2 (hslots slot hslot)
    · exact fun o ho => (made slot hslot o ho).owns
    · exact ih slot hslot o ho ((hslots slot hslot).mono (resources_subset (sound slot hslot) ho))
  | reading k _ ih => exact ih hf
  | writing k _ ih => exact ih hf

/-- So operations stay apart at all depths as soon as they do in the outermost slots. -/
theorem throughout_of_made {slots : List (Slot Instruction)}
    (hslots : ∀ slot ∈ slots, slot.Sound ∧ slot.Apart f)
    (hmade : ∀ slot ∈ slots, ∀ op ∈ slot.operations, op.Made) :
    Throughout (fun slot => slot.Sound ∧ slot.Apart f ∧ ∀ op ∈ slot.operations, op.Owns)
      slots := by
  refine .intro (fun slot hslot => ?_) fun slot hslot op hop => ?_
  · obtain ⟨hs, hapart⟩ := hslots slot hslot
    exact ⟨hs, hapart, fun op hop => (hmade slot hslot op hop).owns⟩
  · obtain ⟨hs, hapart⟩ := hslots slot hslot
    refine (hmade slot hslot op hop).throughout ?_
    exact (hs.apart_iff.1 hapart).mono (resources_subset hs hop)

/-- A schedule of instructions that can be made is sound at all depths. -/
theorem throughout_sound_of_made {s : Schedule Instruction} (hs : s.Sound)
    (hmade : ∀ op ∈ s.operations, op.Made) : Throughout Slot.Sound s.slots := by
  have hdeep := throughout_of_made
    (fun slot hslot => ⟨hs slot hslot, (hs slot hslot).apart Function.injective_id⟩)
    fun slot hslot op hop => hmade op (List.mem_flatMap.2 ⟨slot, hslot, hop⟩)
  exact hdeep.mono fun slot h => h.1

/-- Instructions around lists of instructions that share no resource can be made. -/
theorem Made.nesting (name : String) {lists : List (List Instruction)}
    (hnd : ∀ ops ∈ lists, (ops.flatMap Timetable.resources).Nodup)
    (hmade : ∀ op ∈ lists.flatten, op.Made) : (Timetable.nesting name lists).Made := by
  refine .wrap name (Slot.sound_map_ofApart hnd) fun slot hslot op hop => ?_
  obtain ⟨ops, hops, rfl⟩ := List.mem_map.1 hslot
  exact hmade op (List.mem_flatten.2 ⟨ops, hops, hop⟩)

/-! ### What the plain map keeps -/

theorem mem_resourcesInUse_carry {slot : Slot Instruction} (hs : slot.Sound) (h : slot.Apart f)
    {r : Resource} :
    r ∈ (slot.mapOperations (carry f rule)).resourcesInUse ↔
      ∃ x ∈ slot.resourcesInUse, f x = r := by
  rw [(h.sound_map resources_carry).mem_resourcesInUse_iff, Slot.operations_mapOperations,
    List.flatMap_map]
  simp only [resources_carry, ← List.map_flatMap, List.mem_map, hs.mem_resourcesInUse_iff]

/-- Where the operations of the body stay apart, the instruction has its new body's resources. -/
theorem Owns.carry {op : Instruction} (h : op.Owns) (hnd : (op.resources.map f).Nodup)
    (hbody : ∀ inner, body? op = some inner → ∀ slot ∈ inner, slot.Sound ∧ slot.Apart f) :
    (op.carry f rule).Owns := by
  rw [carry_eq]
  intro b' hb'
  obtain ⟨b, hb, rfl⟩ := Option.map_eq_some_iff.1 hb'
  refine ⟨hnd, fun r => ?_⟩
  have hslots := hbody b.slots (body?_eq.2 ⟨b.ruleSerial, hb⟩)
  calc r ∈ op.resources.map f
      ↔ ∃ x, (∃ slot ∈ b.slots, x ∈ slot.resourcesInUse) ∧ f x = r := by
        simp only [List.mem_map, (h b hb).2]
    _ ↔ ∃ slot ∈ b.slots, ∃ x ∈ slot.resourcesInUse, f x = r := by
        constructor
        · rintro ⟨x, ⟨slot, hslot, hx⟩, hr⟩
          exact ⟨slot, hslot, x, hx, hr⟩
        · rintro ⟨slot, hslot, x, hx, hr⟩
          exact ⟨x, ⟨slot, hslot, hx⟩, hr⟩
    _ ↔ ∃ slot ∈ carrySlots f rule b.slots, r ∈ slot.resourcesInUse := by
        simp only [mem_carrySlots, exists_exists_and_eq_and]
        refine exists_congr fun slot => and_congr_right fun hslot => ?_
        exact (mem_resourcesInUse_carry (hslots slot hslot).1 (hslots slot hslot).2).symm

theorem throughout_owns {slots : List (Slot Instruction)}
    (h : Throughout (fun slot => slot.Sound ∧ slot.Apart f ∧ ∀ op ∈ slot.operations, op.Owns)
      slots) :
    Throughout (fun slot => slot.Sound ∧ ∀ op ∈ slot.operations, op.Owns)
      (carrySlots f rule slots) := by
  refine throughout_carrySlots h fun slot hslot inner => ?_
  obtain ⟨_, hapart, howns⟩ := hslot
  refine ⟨hapart.sound_map resources_carry, fun op' hop' => ?_⟩
  obtain ⟨op, hop, rfl⟩ := List.mem_map.1 hop'
  refine (howns op hop).carry (hapart.nodup hop) fun body hbody t ht => ?_
  have hbodies := (inner op hop body hbody).here t ht
  exact ⟨hbodies.1, hbodies.2.1⟩

end Instruction

open Instruction

/-- **Renaming leaves no old body behind.** It fails exactly when two different resources that occur
in one slot of the schedule become one. Otherwise the result is the schedule with `f` applied to
every instruction at every depth, the rules of bodies left aside, and each instruction around a body
acts on just the resources of its new body, once on each one. -/
theorem rename_thorough {s : Schedule Instruction} (hs : s.Sound)
    (hmade : ∀ op ∈ s.operations, op.Made) (f : Resource → Resource) :
    ((∃ e, s.rename f = .error e) ↔ ∃ slot ∈ s.slots,
      ∃ r ∈ slot.resourcesInUse, ∃ r' ∈ slot.resourcesInUse, r ≠ r' ∧ f r = f r') ∧
    ∀ s', s.rename f = .ok s' →
      unruled s'.slots = unruled (relabelled f s.slots) ∧
        Throughout (fun slot => slot.Sound ∧ ∀ op ∈ slot.operations, op.Owns) s'.slots := by
  have hok : (∃ s', s.rename f = .ok s') ↔ ∀ slot ∈ s.slots, slot.Apart f := by
    simp only [Schedule.rename_eq_ok_iff, exists_and_left, exists_eq, and_true]
  constructor
  · have hapart : (∀ slot ∈ s.slots, slot.Apart f) ↔ ∀ slot ∈ s.slots,
        Set.InjOn f {r | r ∈ slot.resourcesInUse} :=
      forall₂_congr fun slot hslot => (hs slot hslot).apart_iff
    rw [exists_error_iff, hok, hapart]
    simp only [Set.InjOn, Set.mem_ofPred_eq]
    grind
  · intro s' hs'
    have hapart := hok.1 ⟨s', hs'⟩
    have hdeep := throughout_of_made (fun slot hslot => ⟨hs slot hslot, hapart slot hslot⟩)
      fun slot hslot op hop => hmade op (List.mem_flatMap.2 ⟨slot, hslot, hop⟩)
    rw [Schedule.rename_eq_ok (hdeep.mono fun slot h => h.2.1)] at hs'
    cases hs'
    refine ⟨?_, throughout_owns hdeep⟩
    rw [relabelled, unruled_carrySlots, unruled_carrySlots]

/-- Instructions in a body in a body: all resources become one, or one of two becomes a third. -/
theorem rename_thorough_two_deep :
    let m : Key := ⟨"m", by decide⟩
    let a : Instruction := { name := "a", resources := [.line 0] }
    let b : Instruction := { name := "b", resources := [.line 1] }
    let sub := nesting "sub" [[a], [b.reading m]]
    let s := Schedule.ofSlots [slotOf [nesting "out" [[sub]]]]
    let f : Resource → Resource := fun r => if r = .line 0 then .line 2 else r
    s.Sound ∧ (∀ op ∈ s.operations, op.Made) ∧
      (∃ e, s.rename (fun _ => .line 0) = .error e) ∧
      ∃ s', s.rename f = .ok s' ∧ unruled s'.slots = unruled (relabelled f s.slots) ∧
        Throughout (fun slot => slot.Sound ∧ ∀ op ∈ slot.operations, op.Owns) s'.slots := by
  intro m a b sub s f
  have hs : s.Sound := List.forall_mem_singleton.2 (Slot.sound_ofApart (by decide))
  have hsub : sub.Made := by
    refine .nesting "sub" (by decide) (List.forall_mem_cons.2 ⟨.plain "a" [.line 0], ?_⟩)
    exact List.forall_mem_singleton.2 (.reading m (.plain "b" [.line 1]))
  have hmade : ∀ op ∈ s.operations, op.Made :=
    List.forall_mem_singleton.2 (.nesting "out" (by decide) (List.forall_mem_singleton.2 hsub))
  refine ⟨hs, hmade, ?_, ?_⟩
  · refine (rename_thorough hs hmade _).1.2 ⟨_, List.mem_singleton_self _, ?_⟩
    exact ⟨.line 0, by decide, .line 1, by decide, by decide, rfl⟩
  · have hmeet : ¬∃ slot ∈ s.slots, ∃ r ∈ slot.resourcesInUse, ∃ r' ∈ slot.resourcesInUse,
        r ≠ r' ∧ f r = f r' := by decide
    have hok : ¬∃ e, s.rename f = .error e := fun h => hmeet ((rename_thorough hs hmade f).1.1 h)
    rw [exists_error_iff, not_not] at hok
    obtain ⟨s', hs'⟩ := hok
    exact ⟨s', hs', (rename_thorough hs hmade f).2 s' hs'⟩

end Timetable
