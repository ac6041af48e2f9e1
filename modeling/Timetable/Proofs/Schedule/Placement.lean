import Timetable.Proofs.Schedule.Grouping
import Timetable.Proofs.Schedule.Landing
import Timetable.Proofs.Schedule.RangeFill
import Timetable.Instruction

/-!
# Placing loses, duplicates and reorders nothing

There are five ways to put operations into a schedule. Each of them may open slots, or let new
operations share a slot with old ones, but all of them leave the old slots in their order with what
they held, and put in just the operations that they were given.

* `Schedule.adds_insertGroups`, `Schedule.adds_joinEach`: the two batches, group by group and edit by
  edit.
* `placing_adds`: all five requests.
-/

namespace Timetable

variable {ω : Type} [Operation ω]

namespace Schedule

/-- An insertion adds the operations of its bundle. -/
theorem adds_insert {s : Schedule ω} (hs : s.Sound) {bundle : Bundle ω} (hb : bundle.Sound)
    {index next : Nat} {strategy : Strategy}
    (h : (s.insert index bundle strategy).answer = .ok next) :
    (s.insert index bundle strategy).left.Sound ∧
      s.Adds bundle.operations (s.insert index bundle strategy).left := by
  obtain ⟨moved, landed, hops, hins⟩ := insertion_of_insert hs hb h
  exact ⟨hins.sound, moved, landed, hins.layout, List.Perm.of_eq hops⟩

/-! ### Batches -/

omit [Operation ω] in
theorem commit_map_eq_ok {s : Schedule ω} {edit : Except Fault (Schedule ω)}
    (h : (s.commit (edit.map (·, ()))).answer = .ok ()) :
    ∃ scratch, edit = .ok scratch ∧
      (s.commit (edit.map (·, ()))).left = { s with slots := scratch.slots } := by
  obtain ⟨scratch, hedit, hleft⟩ := commit_eq_ok h
  cases edit with
  | error e => cases hedit
  | ok done =>
    cases hedit
    exact ⟨scratch, rfl, hleft⟩

/-- Inserting group after group adds the operations of all groups. Within a group the bundles go in
the other way round. -/
theorem adds_insertGroups {build : Build} {groups : List (Nat × List (Bundle ω))}
    {s s' : Schedule ω} (hs : s.Sound) (hb : ∀ group ∈ groups, ∀ bundle ∈ group.2, bundle.Sound)
    {shift : Nat} (h : s.insertGroups build shift groups = .ok s') :
    s'.Sound ∧ s.Adds ((groups.flatMap Prod.snd).flatMap Bundle.operations) s' := by
  -- What has been added and what is still to come are together the operations of all groups.
  let kept : List (Nat × List (Bundle ω)) → Nat → Schedule ω → Prop := fun rest _ t =>
    t.Sound ∧ (∀ group ∈ rest, ∀ bundle ∈ group.2, bundle.Sound) ∧ ∃ ops, s.Adds ops t ∧
      (ops ++ (rest.flatMap Prod.snd).flatMap Bundle.operations).Perm
        ((groups.flatMap Prod.snd).flatMap Bundle.operations)
  have hstart : kept groups shift s := ⟨hs, hb, [], .refl s, .refl _⟩
  have hend : ∃ shift', kept [] shift' s' := by
    rw [← List.map_id groups] at h
    refine insertGroups_keeping id ?_ hstart h
    rintro group rest shift t next ⟨ht, hb, ops, hadds, hperm⟩ - hans
    obtain ⟨hbundles, hb⟩ := List.forall_mem_cons.1 hb
    have hsound : (Bundle.sequence group.2.reverse).Sound :=
      Bundle.sound_sequence fun part hpart => hbundles part (List.mem_reverse.1 hpart)
    obtain ⟨hmid, hmore⟩ := adds_insert ht hsound hans
    refine ⟨hmid, hb, _, hadds.trans hmore, .trans ?_ hperm⟩
    rw [Bundle.operations_sequence, List.flatMap_cons, List.flatMap_append, List.append_assoc]
    exact ((group.2.reverse_perm.flatMap_right _).append_right _).append_left ops
  obtain ⟨_, hs', -, ops, hadds, hperm⟩ := hend
  exact ⟨hs', hadds.of_perm (by simpa using hperm)⟩

/-- A batch of insertions adds the operations of all its bundles. -/
theorem adds_batchInsert {build : Build} {s : Schedule ω} (hs : s.Sound)
    {edits : List (Nat × Bundle ω)} (hb : ∀ edit ∈ edits, edit.2.Sound)
    (h : (s.batchInsert build edits).answer = .ok ()) :
    (s.batchInsert build edits).left.Sound ∧
      s.Adds (edits.flatMap fun edit => edit.2.operations) (s.batchInsert build edits).left := by
  rw [batchInsert] at h ⊢
  obtain ⟨scratch, hgroups, hleft⟩ := commit_map_eq_ok h
  rw [hleft]
  have hperm := edits.mergeSort_perm fun a b => a.1 ≤ b.1
  have hbundles : ∀ group ∈ groupByIndex (edits.mergeSort fun a b => a.1 ≤ b.1),
      ∀ bundle ∈ group.2, bundle.Sound := by
    intro group hgroup bundle hmem
    obtain ⟨edit, hedit, rfl⟩ := exists_edit_of_mem_group hgroup hmem
    exact hb edit hedit
  obtain ⟨hsound, hadds⟩ := adds_insertGroups hs hbundles hgroups
  rw [flatMap_groupByIndex, List.flatMap_map] at hadds
  exact ⟨hsound, hadds.of_perm (hperm.flatMap_right _)⟩

/-- Operations that join a slot are added to it. -/
theorem adds_joinSlot {ops : List ω} {s s' : Schedule ω} {index : Nat}
    (h : s.joinSlot index ops = .ok s') : (s.Sound → s'.Sound) ∧ s.Adds ops s' := by
  induction ops generalizing s with
  | nil =>
    cases h
    exact ⟨id, Adds.refl _⟩
  | cons op ops ih =>
    rw [joinSlot] at h
    cases hslot : s.slots[index]? with
    | none =>
      rw [hslot] at h
      cases h
    | some slot =>
      rw [hslot] at h
      obtain ⟨-, -, h⟩ := bind_eq_ok_iff.1 h
      obtain ⟨slot', hpush, h⟩ := bind_eq_ok_iff.1 h
      split at h
      · obtain ⟨hsound, hrest⟩ := ih h
        constructor
        · intro hs
          apply hsound
          exact hs.set ((hs slot (List.mem_of_getElem? hslot)).push hpush) index
        · have hone : s.Adds [op] { s with slots := s.slots.set index slot' } :=
            ⟨id, [(index, op)], Layout.set hslot (Slot.operations_of_push hpush), .refl _⟩
          exact hone.trans hrest
      · cases h

theorem adds_joinEach {edits : List (Nat × Bundle ω)} {s s' : Schedule ω}
    (h : s.joinEach edits = .ok s') :
    (s.Sound → s'.Sound) ∧ s.Adds (edits.flatMap fun edit => edit.2.operations) s' := by
  induction edits generalizing s with
  | nil =>
    cases h
    exact ⟨id, Adds.refl _⟩
  | cons edit edits ih =>
    obtain ⟨index, bundle⟩ := edit
    rw [joinEach] at h
    split at h
    · obtain ⟨mid, hjoin, h⟩ := bind_eq_ok_iff.1 h
      obtain ⟨hmid, hfirst⟩ := adds_joinSlot hjoin
      obtain ⟨hsound, hrest⟩ := ih h
      exact ⟨hsound ∘ hmid, hfirst.trans hrest⟩
    · cases h

/-- A batch of additions to slots adds the operations of all its bundles. -/
theorem adds_batchInsertInto {s : Schedule ω} {edits : List (Nat × Bundle ω)}
    (h : (s.batchInsertInto edits).answer = .ok ()) :
    (s.Sound → (s.batchInsertInto edits).left.Sound) ∧
      s.Adds (edits.flatMap fun edit => edit.2.operations) (s.batchInsertInto edits).left := by
  rw [batchInsertInto] at h ⊢
  obtain ⟨scratch, hjoin, hleft⟩ := commit_map_eq_ok h
  rw [hleft]
  obtain ⟨hsound, hadds⟩ := adds_joinEach hjoin
  exact ⟨hsound, hadds⟩

end Schedule

/-- **Placing loses, duplicates and reorders nothing.** Each of the five requests that succeeds adds
just the operations that it was given, in every build. What is inserted stands before the cursor that
is answered. -/
theorem placing_adds {s : Schedule ω} (hs : s.Sound) :
    (∀ index bundle strategy next, bundle.Sound →
      (s.insert index bundle strategy).answer = .ok next →
      ∃ moved landed, Layout s.slots moved landed (s.insert index bundle strategy).left.slots ∧
        (landed.map Prod.snd).Perm bundle.operations ∧ (∀ e ∈ landed, e.1 < next) ∧
        next ≤ (s.insert index bundle strategy).left.length) ∧
    (∀ bundle start stop next, (s.insertIntoRange bundle start stop).answer = .ok next →
      s.Adds bundle.operations (s.insertIntoRange bundle start stop).left) ∧
    (∀ build bundle start frontier final,
      (s.insertAtFrontier build bundle start frontier).answer = .ok final →
      s.Adds bundle.operations (s.insertAtFrontier build bundle start frontier).left) ∧
    (∀ build edits, (∀ edit ∈ edits, edit.2.Sound) → (s.batchInsert build edits).answer = .ok () →
      s.Adds (edits.flatMap fun edit => edit.2.operations) (s.batchInsert build edits).left) ∧
    ∀ edits, (s.batchInsertInto edits).answer = .ok () →
      s.Adds (edits.flatMap fun edit => edit.2.operations) (s.batchInsertInto edits).left := by
  refine ⟨?_, ?_, ?_, ?_, ?_⟩
  · intro index bundle strategy next hb h
    obtain ⟨moved, landed, hops, hins⟩ := Schedule.insertion_of_insert hs hb h
    exact ⟨moved, landed, hins.layout, List.Perm.of_eq hops, hins.landed_lt, hins.cursor_le⟩
  · intro bundle start stop next h
    exact (Schedule.adds_insertIntoRange hs h).2
  · intro build bundle start frontier final h
    obtain ⟨exact, moved, hlanded⟩ := Schedule.landed_insertAtFrontier hs h
    exact ⟨moved, _, hlanded.behind.layout, List.Perm.of_eq hlanded.behind.inserted⟩
  · intro build edits hb h
    exact (Schedule.adds_batchInsert hs hb h).2
  · intro edits h
    exact (Schedule.adds_batchInsertInto h).2

/-- A schedule of one slot into which three bundles are inserted, two of them at one index. -/
theorem placing_adds_batch :
    let a : Instruction := { name := "a", resources := [.line 0] }
    let b : Instruction := { name := "b", resources := [.line 1] }
    let slot : Slot Instruction := ⟨[a], SortedMap.insert ∅ (.line 0) 0⟩
    let s := Schedule.ofSlots [slot]
    let edits : List (Nat × Bundle Instruction) :=
      [(1, .slot slot), (0, .operation b), (1, .sequence [.operation a, .operation b])]
    (s.Sound ∧ (∀ edit ∈ edits, edit.2.Sound) ∧ (s.batchInsert .checked edits).answer = .ok ()) ∧
      s.Adds [a, b, a, b] (s.batchInsert .checked edits).left := by
  intro a b slot s edits
  have hslot : slot.Sound := Slot.Sound.ofOperations (rfl : Slot.ofOperations [a] = .ok slot)
  have hs : s.Sound := by
    show ∀ t ∈ [slot], t.Sound
    simp [hslot]
  have hb : ∀ edit ∈ edits, edit.2.Sound := by
    have hseq : (Bundle.sequence [.operation a, .operation b]).Sound :=
      Bundle.sound_sequence (by simp [Bundle.sound_operation])
    simp [edits, Bundle.sound_slot hslot, Bundle.sound_operation, hseq]
  have hsort : (edits.mergeSort fun a b => a.1 ≤ b.1) =
      [(0, .operation b), (1, .slot slot), (1, .sequence [.operation a, .operation b])] := by
    simp [edits, List.mergeSort, List.MergeSort.Internal.splitInTwo]
  have hok : (s.batchInsert .checked edits).answer = .ok () := by
    rw [Schedule.batchInsert, hsort]
    decide +kernel
  exact ⟨⟨hs, hb, hok⟩, (placing_adds hs).2.2.2.1 .checked edits hb hok⟩

end Timetable
