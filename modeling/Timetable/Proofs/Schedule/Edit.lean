import Timetable.Proofs.Schedule.Placement
import Timetable.Proofs.Slot.Parts

/-!
# Edits are made as a whole or not at all

A schedule can be asked for eleven kinds of edits. An edit that is refused leaves the schedule as it
was. Most edits see to this by working on a copy; insertion, and the filling of a range, write into
the schedule itself, and there it holds because nothing can fail once the first slot has been
changed.

* `Edit`, `Edit.run`: the edits with their arguments, and what they do.
* `Edit.left_of_error`: what is left by an edit that fails.
* `Edit.sound_run`, `Edit.sound_runAll`: an edit, and a sequence of edits, keeps slots sound.
* `edit_allOrNothing`: all or nothing, and when insertion fails.
-/

namespace Timetable

variable {ω : Type}

/-- The outcome of an edit, of whose answer only a fault is of interest. -/
def Outcome.forget {α : Type} (o : Outcome ω α) : Outcome ω Unit := ⟨o.left, o.answer.map fun _ => ()⟩

theorem Outcome.forget_answer_eq_error_iff {α : Type} {o : Outcome ω α} {e : Fault} :
    o.forget.answer = .error e ↔ o.answer = .error e := by
  obtain ⟨left, answer⟩ := o
  cases answer <;> simp [Outcome.forget, Except.map]

theorem Outcome.exists_answer_of_forget {α : Type} {o : Outcome ω α} {u : Unit}
    (h : o.forget.answer = .ok u) : ∃ a, o.answer = .ok a := by
  obtain ⟨left, answer⟩ := o
  cases answer with
  | error e => cases h
  | ok a => exact ⟨a, rfl⟩

/-- A request to change a schedule. -/
inductive Edit (ω : Type) where
  | insert (index : Nat) (bundle : Bundle ω) (strategy : Strategy)
  | append (bundle : Bundle ω) (strategy : Strategy)
  | insertIntoRange (bundle : Bundle ω) (start stop : Nat)
  | insertAtFrontier (bundle : Bundle ω) (start : Nat) (frontier : Frontier)
  | batchInsert (edits : List (Nat × Bundle ω))
  | batchRemove (edits : List (Nat × ω))
  | batchReplace (edits : List (Nat × ω × ω))
  | batchInsertInto (edits : List (Nat × Bundle ω))
  | setSlot (index : Nat) (slot : Slot ω)
  | splice (start stop : Nat) (bundles : List (Bundle ω))
  | removeSlot (index : Nat)

variable [Operation ω]

namespace Edit

def run (build : Build) (s : Schedule ω) : Edit ω → Outcome ω Unit
  | insert index bundle strategy => (s.insert index bundle strategy).forget
  | append bundle strategy => (s.append bundle strategy).forget
  | insertIntoRange bundle start stop => (s.insertIntoRange bundle start stop).forget
  | insertAtFrontier bundle start frontier => (s.insertAtFrontier build bundle start frontier).forget
  | batchInsert edits => s.batchInsert build edits
  | batchRemove edits => s.batchRemove edits
  | batchReplace edits => s.batchReplace edits
  | batchInsertInto edits => s.batchInsertInto edits
  | setSlot index slot => s.setSlot index slot
  | splice start stop bundles => s.splice start stop bundles
  | removeSlot index => (s.removeSlot index).forget

/-- The finished slots that the edit puts into a schedule are sound. -/
def Sound : Edit ω → Prop
  | insert _ bundle _ | append bundle _ => bundle.Sound
  | batchInsert edits => ∀ edit ∈ edits, edit.2.Sound
  | setSlot _ slot => slot.Sound
  | splice _ _ bundles => ∀ bundle ∈ bundles, bundle.Sound
  | _ => True

end Edit

namespace Schedule

/-! ### What is left by an edit that fails -/

theorem insert_left_of_error {s : Schedule ω} (hs : s.Sound) {bundle : Bundle ω} (hb : bundle.Sound)
    {index : Nat} {strategy : Strategy} {e : Fault}
    (h : (s.insert index bundle strategy).answer = .error e) :
    (s.insert index bundle strategy).left = s := by
  rw [insert, (insert_answer_eq_error_iff hs hb).1 h]

theorem insertAtFrontier_left_of_error {build : Build} {s : Schedule ω} {bundle : Bundle ω}
    {start : Nat} {frontier : Frontier} {e : Fault}
    (h : (s.insertAtFrontier build bundle start frontier).answer = .error e) :
    (s.insertAtFrontier build bundle start frontier).left = s := by
  rw [insertAtFrontier] at h ⊢
  split at h
  · cases h
  · rename_i hne
    rw [if_neg hne]
    exact commit_left_of_error h

theorem setSlot_left_of_error {s : Schedule ω} {index : Nat} {slot : Slot ω} {e : Fault}
    (h : (s.setSlot index slot).answer = .error e) : (s.setSlot index slot).left = s := by
  rw [setSlot] at h ⊢
  split
  · rename_i hlt
    rw [if_pos hlt] at h
    cases hcheck : checkSlot slot with
    | error f => rfl
    | ok _ =>
      rw [hcheck] at h
      cases h
  · rfl

theorem splice_left_of_error {s : Schedule ω} {start stop : Nat} {bundles : List (Bundle ω)}
    {e : Fault} (h : (s.splice start stop bundles).answer = .error e) :
    (s.splice start stop bundles).left = s := by
  rw [splice] at h ⊢
  split
  · rfl
  · rename_i hrange
    rw [if_neg hrange] at h
    cases hslots : bundles.mapM Bundle.asSlot with
    | error f => rfl
    | ok slots =>
      rw [hslots] at h
      dsimp only at h ⊢
      cases hcheck : checkSlots slots with
      | error f => rfl
      | ok _ =>
        rw [hcheck] at h
        cases h

omit [Operation ω] in
theorem removeSlot_left_of_error {s : Schedule ω} {index : Nat} {e : Fault}
    (h : (s.removeSlot index).answer = .error e) : (s.removeSlot index).left = s := by
  rw [removeSlot] at h ⊢
  cases hslot : s.slots[index]? with
  | none => rfl
  | some slot =>
    rw [hslot] at h
    cases h

end Schedule

/-- An edit that fails changes nothing. -/
theorem Edit.left_of_error {build : Build} {s : Schedule ω} (hs : s.Sound) {edit : Edit ω}
    (hedit : edit.Sound) {e : Fault} (h : (edit.run build s).answer = .error e) :
    (edit.run build s).left = s := by
  cases edit with
  | insert index bundle strategy =>
    exact Schedule.insert_left_of_error hs hedit (Outcome.forget_answer_eq_error_iff.1 h)
  | append bundle strategy =>
    exact Schedule.insert_left_of_error hs hedit (Outcome.forget_answer_eq_error_iff.1 h)
  | insertIntoRange bundle start stop =>
    exact Schedule.insertIntoRange_left_of_error hs (Outcome.forget_answer_eq_error_iff.1 h)
  | insertAtFrontier bundle start frontier =>
    exact Schedule.insertAtFrontier_left_of_error (Outcome.forget_answer_eq_error_iff.1 h)
  | batchInsert edits => exact Schedule.commit_left_of_error h
  | batchRemove edits => exact Schedule.commit_left_of_error h
  | batchReplace edits => exact Schedule.commit_left_of_error h
  | batchInsertInto edits => exact Schedule.commit_left_of_error h
  | setSlot index slot => exact Schedule.setSlot_left_of_error h
  | splice start stop bundles => exact Schedule.splice_left_of_error h
  | removeSlot index =>
    exact Schedule.removeSlot_left_of_error (Outcome.forget_answer_eq_error_iff.1 h)

/-! ### What is left by an edit that succeeds -/

namespace Schedule

theorem slotHolding_eq_ok {s : Schedule ω} {index : Nat} {op : ω} {slot : Slot ω}
    (h : s.slotHolding index op = .ok slot) : slot ∈ s.slots := by
  rw [slotHolding] at h
  cases hslot : s.slots[index]? with
  | none =>
    rw [hslot] at h
    cases h
  | some found =>
    rw [hslot] at h
    dsimp only at h
    split at h
    · cases h
      exact List.mem_of_getElem? hslot
    · cases h

theorem sound_removeEach {edits : List (Nat × ω)} {s s' : Schedule ω} (hs : s.Sound)
    (h : s.removeEach edits = .ok s') : s'.Sound := by
  induction edits generalizing s with
  | nil =>
    cases h
    exact hs
  | cons edit edits ih =>
    obtain ⟨index, op⟩ := edit
    obtain ⟨slot, hslot, h⟩ := bind_eq_ok_iff.1 h
    exact ih (hs.set ((hs slot (slotHolding_eq_ok hslot)).filter _) index) h

theorem sound_replaceEach {edits : List (Nat × ω × ω)} {s s' : Schedule ω} (hs : s.Sound)
    (h : s.replaceEach edits = .ok s') : s'.Sound := by
  induction edits generalizing s with
  | nil =>
    cases h
    exact hs
  | cons edit edits ih =>
    obtain ⟨index, old, new⟩ := edit
    obtain ⟨-, -, h⟩ := bind_eq_ok_iff.1 h
    obtain ⟨slot, -, h⟩ := bind_eq_ok_iff.1 h
    obtain ⟨slot', hnew, h⟩ := bind_eq_ok_iff.1 h
    exact ih (hs.set (Slot.Sound.ofOperations hnew) index) h

omit [Operation ω] in
/-- The bundles that are slots. -/
theorem eq_map_of_mapM_asSlot {bundles : List (Bundle ω)} {slots : List (Slot ω)}
    (h : bundles.mapM Bundle.asSlot = .ok slots) : bundles = slots.map Bundle.slot := by
  induction bundles generalizing slots with
  | nil =>
    cases h
    rfl
  | cons bundle bundles ih =>
    rw [List.mapM_cons] at h
    obtain ⟨slot, hslot, h⟩ := bind_eq_ok_iff.1 h
    obtain ⟨rest, hslots, h⟩ := bind_eq_ok_iff.1 h
    cases h
    cases bundle with
    | slot s =>
      cases hslot
      rw [List.map_cons, ← ih hslots]
    | operation op => cases hslot
    | sequence parts => cases hslot

theorem sound_of_mapM_asSlot {bundles : List (Bundle ω)} (hb : ∀ bundle ∈ bundles, bundle.Sound)
    {slots : List (Slot ω)} (h : bundles.mapM Bundle.asSlot = .ok slots) :
    ∀ slot ∈ slots, slot.Sound := by
  intro slot hslot
  have hbundle := hb (.slot slot) (eq_map_of_mapM_asSlot h ▸ List.mem_map_of_mem hslot)
  exact hbundle _ List.mem_cons_self

theorem sound_splice {s : Schedule ω} (hs : s.Sound) {start stop : Nat} {bundles : List (Bundle ω)}
    (hb : ∀ bundle ∈ bundles, bundle.Sound) : (s.splice start stop bundles).left.Sound := by
  rw [splice]
  split
  · exact hs
  · cases hslots : bundles.mapM Bundle.asSlot with
    | error e => exact hs
    | ok slots =>
      dsimp only
      cases checkSlots slots with
      | error e => exact hs
      | ok _ =>
        intro slot hmem
        rcases List.mem_append.1 hmem with hmem | hmem
        · rcases List.mem_append.1 hmem with hmem | hmem
          · exact hs slot (List.mem_of_mem_take hmem)
          · exact sound_of_mapM_asSlot hb hslots slot hmem
        · exact hs slot (List.mem_of_mem_drop hmem)

theorem sound_setSlot {s : Schedule ω} (hs : s.Sound) {index : Nat} {slot : Slot ω}
    (hslot : slot.Sound) : (s.setSlot index slot).left.Sound := by
  rw [setSlot]
  split
  · cases checkSlot slot with
    | error e => exact hs
    | ok _ => exact hs.set hslot index
  · exact hs

theorem sound_removeSlot {s : Schedule ω} (hs : s.Sound) (index : Nat) :
    (s.removeSlot index).left.Sound := by
  rw [removeSlot]
  cases s.slots[index]? with
  | none => exact hs
  | some slot => exact fun t ht => hs t (List.mem_of_mem_eraseIdx ht)

end Schedule

/-- An edit keeps the slots of a schedule sound. -/
theorem Edit.sound_run {build : Build} {s : Schedule ω} (hs : s.Sound) {edit : Edit ω}
    (hedit : edit.Sound) : (edit.run build s).left.Sound := by
  cases hans : (edit.run build s).answer with
  | error e =>
    rw [Edit.left_of_error hs hedit hans]
    exact hs
  | ok done =>
    cases edit with
    | insert index bundle strategy =>
      obtain ⟨next, h⟩ := Outcome.exists_answer_of_forget hans
      exact (Schedule.adds_insert hs hedit h).1
    | append bundle strategy =>
      obtain ⟨next, h⟩ := Outcome.exists_answer_of_forget hans
      exact (Schedule.adds_insert hs hedit h).1
    | insertIntoRange bundle start stop =>
      obtain ⟨next, h⟩ := Outcome.exists_answer_of_forget hans
      exact (Schedule.adds_insertIntoRange hs h).1
    | insertAtFrontier bundle start frontier =>
      obtain ⟨final, h⟩ := Outcome.exists_answer_of_forget hans
      obtain ⟨_, _, hlanded⟩ := Schedule.landed_insertAtFrontier hs h
      exact hlanded.sound
    | batchInsert edits => exact (Schedule.adds_batchInsert hs hedit hans).1
    | batchInsertInto edits => exact (Schedule.adds_batchInsertInto hans).1 hs
    | batchRemove edits =>
      obtain ⟨scratch, hremove, hleft⟩ := Schedule.commit_map_eq_ok hans
      have hscratch := Schedule.sound_removeEach hs hremove
      show (s.batchRemove edits).left.Sound
      rw [Schedule.batchRemove, hleft]
      exact hscratch
    | batchReplace edits =>
      obtain ⟨scratch, hreplace, hleft⟩ := Schedule.commit_map_eq_ok hans
      have hscratch := Schedule.sound_replaceEach hs hreplace
      show (s.batchReplace edits).left.Sound
      rw [Schedule.batchReplace, hleft]
      exact hscratch
    | setSlot index slot => exact Schedule.sound_setSlot hs hedit
    | splice start stop bundles => exact Schedule.sound_splice hs hedit
    | removeSlot index => exact Schedule.sound_removeSlot hs index

/-- A sequence of edits, of which some may fail, keeps the slots of a schedule sound. -/
theorem Edit.sound_runAll {build : Build} {edits : List (Edit ω)}
    (hedits : ∀ edit ∈ edits, edit.Sound) {s : Schedule ω} (hs : s.Sound) :
    (edits.foldl (fun s edit => (edit.run build s).left) s).Sound := by
  induction edits generalizing s with
  | nil => exact hs
  | cons edit edits ih =>
    obtain ⟨hedit, hedits⟩ := List.forall_mem_cons.1 hedits
    exact ih hedits (Edit.sound_run hs hedit)

/-- **Edits are made as a whole or not at all.** An edit that fails, in whatever build, leaves slots
and acceptance rule as they were. Insertion, and the filling of a range, fail in their checks alone: insertion fails
exactly when a bare operation names a resource twice or some operation contains itself, and the
fault is that of the first leaf of which this is true. -/
theorem edit_allOrNothing {s : Schedule ω} (hs : s.Sound) :
    (∀ build, ∀ edit : Edit ω, edit.Sound → ∀ e, (edit.run build s).answer = .error e →
      (edit.run build s).left = s) ∧
    (∀ index bundle strategy, bundle.Sound →
      ((∃ e, (s.insert index bundle strategy).answer = .error e) ↔
        (∃ op, Item.operation op ∈ bundle.items ∧ ¬(resources op).Nodup) ∨
          ∃ op ∈ bundle.operations, nestsInItself op = true) ∧
      ∀ e, (s.insert index bundle strategy).answer = .error e ↔
        FirstFault Item.Unfit bundle.items e) ∧
    ∀ bundle start stop e, (s.insertIntoRange bundle start stop).answer = .error e ↔
      ¬(start ≤ stop ∧ stop ≤ s.length) ∧ e = .badRange start stop s.length ∨
        (start ≤ stop ∧ stop ≤ s.length) ∧ FirstFault Unfit bundle.operations e := by
  refine ⟨fun build edit hedit e h => Edit.left_of_error hs hedit h, ?_, ?_⟩
  · intro index bundle strategy hb
    have hfault : ∀ e, (s.insert index bundle strategy).answer = .error e ↔
        FirstFault Item.Unfit bundle.items e := by
      intro e
      rw [Schedule.insert_answer_eq_error_iff hs hb, Schedule.checkItems_eq_error_iff]
    refine ⟨?_, hfault⟩
    simp only [hfault]
    exact Schedule.exists_firstFault_items_iff
  · intro bundle start stop e
    exact Schedule.insertIntoRange_eq_error_iff hs

/-- A bundle of which the last operation names a resource twice is refused before anything of it has
been inserted. -/
theorem edit_allOrNothing_repeated :
    let a : Instruction := { name := "a", resources := [.line 0] }
    let b : Instruction := { name := "b", resources := [.line 1, .line 0, .line 1] }
    let slot : Slot Instruction := ⟨[a], SortedMap.insert ∅ (.line 0) 0⟩
    let bundle : Bundle Instruction := .sequence [.operation a, .slot slot, .operation b]
    let edit : Edit Instruction := .insert 1 bundle .earliest
    let s := Schedule.ofSlots [slot, slot]
    (s.Sound ∧ edit.Sound ∧ (edit.run .checked s).answer = .error (.overlap (.line 1))) ∧
      (edit.run .checked s).left = s ∧ FirstFault Item.Unfit bundle.items (.overlap (.line 1)) := by
  intro a b slot bundle edit s
  have hslot : slot.Sound := Slot.Sound.ofOperations (rfl : Slot.ofOperations [a] = .ok slot)
  have hs : s.Sound := by
    show ∀ t ∈ [slot, slot], t.Sound
    simp [hslot]
  have hbundle : bundle.Sound :=
    Bundle.sound_sequence (by simp [Bundle.sound_operation, Bundle.sound_slot hslot])
  have herror : (edit.run .checked s).answer = .error (.overlap (.line 1)) := rfl
  obtain ⟨hleft, hinsert, -⟩ := edit_allOrNothing hs
  exact ⟨⟨hs, hbundle, herror⟩, hleft .checked edit hbundle _ herror,
    ((hinsert 1 bundle .earliest hbundle).2 _).1 rfl⟩

end Timetable
