import Timetable.Proofs.Schedule.EarliestStep
import Timetable.Proofs.Schedule.Edit

/-!
# What an acceptance rule maintains

A rule is asked slot by slot and operation by operation, in one place by insertion, in another when a
free slot is looked for, and in a third by a batch; for a fresh slot it is not asked at all. Whatever
the order of the requests, an operation only joins others with the consent of the rule. A property
of slots which such a step keeps, and which a slot with one operation always has, is therefore never
lost.

* `Acceptance.Maintains`: what a property of slots and a rule must have to do with each other.
* `Acceptance.Unopposed`, `Acceptance.Maintains.push`: one operation joins a slot.
* `Acceptance.atMost`: a rule of this kind, that bounds the number of operations in a slot.
* `Bundle.Bare`: a bundle that brings no slots of its own.
* `Schedule.Guarded`: the rule of the schedule, and the property for all its slots.
* `Schedule.Guarded.join`, `Schedule.Guarded.place`, `Schedule.Guarded.placeFresh`: the step, in a
  slot that is there, in one that may have to be made, and in one that is made.
* `Schedule.Guarded.insert`, `Schedule.Guarded.insertIntoRange`, `Schedule.Guarded.batchInsert`,
  `Schedule.Guarded.batchInsertInto`: the requests.
* `placing_maintains`: every request, and every sequence of requests.
-/

namespace Timetable

variable {ω : Type} [Operation ω]

/-! ### One operation joins a slot -/

/-- The property is one that the rule maintains: a slot with at most one operation has it, and so
does a slot that has it after an operation has joined which shares no resource with those that are
there and which the rule accepts. -/
structure Acceptance.Maintains (rule : Acceptance ω) (Inv : Slot ω → Prop) : Prop where
  small : ∀ slot : Slot ω, slot.Sound → slot.operations.length ≤ 1 → Inv slot
  join : ∀ (slot slot' : Slot ω) (op : ω), slot.Sound → Inv slot →
    (∀ a ∈ slot.operations, ¬SharesResource a op) → rule.accepts op slot = true →
    slot.push op = .ok slot' → Inv slot'

omit [Operation ω] in
/-- The rule does not keep the operation out of the slot, because it accepts it or because there is
nothing to join. -/
def Acceptance.Unopposed (rule : Acceptance ω) (op : ω) (slot : Slot ω) : Prop :=
  slot.operations = [] ∨ rule.accepts op slot = true

theorem Slot.Sound.not_sharesResource_of_push {slot slot' : Slot ω} (hs : slot.Sound) {op : ω}
    (h : slot.push op = .ok slot') : ∀ a ∈ slot.operations, ¬SharesResource a op := by
  intro a ha hshare
  obtain ⟨r, hra, hro⟩ := hshare
  have hnd := hs.push_eq_ok_iff.1 ⟨slot', h⟩
  rw [List.flatMap_append, List.flatMap_singleton, List.nodup_append] at hnd
  exact hnd.2.2 r (List.mem_flatMap.2 ⟨a, ha, hra⟩) r hro rfl

variable {rule : Acceptance ω} {Inv : Slot ω → Prop}

theorem Acceptance.Maintains.push (hrule : rule.Maintains Inv) {slot slot' : Slot ω}
    (hs : slot.Sound) (hinv : Inv slot) {op : ω} (hop : rule.Unopposed op slot)
    (h : slot.push op = .ok slot') : Inv slot' := by
  rcases hop with hempty | haccepts
  · apply hrule.small slot' (hs.push h)
    rw [Slot.operations_of_push h, hempty]
    exact Nat.le_refl 1
  · exact hrule.join slot slot' op hs hinv (hs.not_sharesResource_of_push h) haccepts h

omit [Operation ω] in
def Acceptance.atMost (n : Nat) : Acceptance ω := ⟨0, fun _ slot => slot.operations.length < n⟩

theorem Acceptance.maintains_atMost {n : Nat} (hn : 1 ≤ n) :
    (Acceptance.atMost n).Maintains fun slot : Slot ω => slot.operations.length ≤ n where
  small _ _ hsmall := Nat.le_trans hsmall hn
  join slot slot' op _ _ _ haccepts hpush := by
    rw [Slot.operations_of_push hpush, List.length_append]
    exact of_decide_eq_true haccepts

/-! ### Bundles of bare operations -/

def Bundle.Bare (b : Bundle ω) : Prop := ∀ slot, Item.slot slot ∉ b.items

omit [Operation ω] in
theorem Bundle.bare_ofList (ops : List ω) : (Bundle.ofList ops).Bare := by
  intro slot hslot
  rw [Bundle.items_ofList] at hslot
  obtain ⟨op, -, hop⟩ := List.mem_map.1 hslot
  cases hop

omit [Operation ω] in
theorem Bundle.bare_sequence {parts : List (Bundle ω)} (h : ∀ part ∈ parts, part.Bare) :
    (Bundle.sequence parts).Bare := by
  intro slot hslot
  rw [Bundle.items, Bundle.itemsOfParts_eq_flatMap] at hslot
  obtain ⟨part, hpart, hmem⟩ := List.mem_flatMap.1 hslot
  exact h part hpart slot hmem

theorem Bundle.Bare.sound {b : Bundle ω} (h : b.Bare) : b.Sound := by
  intro item hitem
  cases item with
  | operation op => trivial
  | slot slot => exact absurd hitem (h slot)

/-! ### One operation goes into a schedule -/

namespace Schedule

/-- The schedule carries the rule, and its slots are sound and have the property. -/
structure Guarded (s : Schedule ω) (rule : Acceptance ω) (Inv : Slot ω → Prop) : Prop where
  acceptance : s.acceptance = some rule
  sound : s.Sound
  holds : ∀ slot ∈ s.slots, Inv slot

namespace Guarded

variable {s s' : Schedule ω}

/-- A schedule of slots with at most one operation each is guarded. -/
theorem ofSlots (hrule : rule.Maintains Inv) {slots : List (Slot ω)}
    (hslots : ∀ slot ∈ slots, slot.Sound ∧ slot.operations.length ≤ 1) :
    ((Schedule.ofSlots slots).withAcceptance rule).Guarded rule Inv where
  acceptance := rfl
  sound slot hslot := (hslots slot hslot).1
  holds slot hslot := hrule.small slot (hslots slot hslot).1 (hslots slot hslot).2

/-- Some slots stay, and the others are sound and have the property. -/
theorem withSlots (h : s.Guarded rule Inv) {slots : List (Slot ω)}
    (hslots : ∀ slot ∈ slots, slot ∈ s.slots ∨ slot.Sound ∧ Inv slot) :
    Guarded { s with slots } rule Inv where
  acceptance := h.acceptance
  sound slot hslot := (hslots slot hslot).elim (h.sound slot) And.left
  holds slot hslot := (hslots slot hslot).elim (h.holds slot) And.right

/-- An operation joins a slot that does not oppose it. -/
theorem join (h : s.Guarded rule Inv) (hrule : rule.Maintains Inv) {i : Nat} {slot slot' : Slot ω}
    {op : ω} (hslot : s.slots[i]? = some slot) (hop : rule.Unopposed op slot)
    (hpush : slot.push op = .ok slot') :
    Guarded { s with slots := s.slots.set i slot' } rule Inv := by
  have hmem := List.mem_of_getElem? hslot
  have hsound := h.sound slot hmem
  refine h.withSlots fun t ht => ?_
  rcases List.mem_or_eq_of_mem_set ht with ht | rfl
  · exact .inl ht
  · exact .inr ⟨hsound.push hpush, hrule.push hsound (h.holds slot hmem) hop hpush⟩

theorem padTo (h : s.Guarded rule Inv) (hrule : rule.Maintains Inv) (n : Nat) :
    (s.padTo n).Guarded rule Inv := by
  refine h.withSlots fun t ht => ?_
  rcases List.mem_append.1 ht with ht | ht
  · exact .inl ht
  · rw [List.eq_of_mem_replicate ht]
    exact .inr ⟨Slot.sound_empty, hrule.small _ Slot.sound_empty (Nat.zero_le 1)⟩

theorem openSlot (h : s.Guarded rule Inv) (hrule : rule.Maintains Inv) {k : Nat}
    (hk : k ≤ s.length) : (s.openSlot k).Guarded rule Inv := by
  refine h.withSlots fun t ht => ?_
  rcases (List.mem_insertIdx hk).1 ht with rfl | ht
  · exact .inr ⟨Slot.sound_empty, hrule.small _ Slot.sound_empty (Nat.zero_le 1)⟩
  · exact .inl ht

/-- A slot that takes an operation does not oppose it. -/
theorem unopposed_of_fits (h : s.Guarded rule Inv) {p : Nat} {op : ω} (hfit : s.fits p op = true)
    {slot : Slot ω} (hslot : s.slots[p]? = some slot) : rule.Unopposed op slot := by
  rw [fits, hslot] at hfit
  have haccepts := (Bool.and_eq_true_iff.1 hfit).2
  rw [accepts, h.acceptance] at haccepts
  exact .inr haccepts

theorem pushAt (h : s.Guarded rule Inv) (hrule : rule.Maintains Inv) {p : Nat} {op : ω}
    (hop : ∀ slot, s.slots[p]? = some slot → rule.Unopposed op slot)
    (hpush : s.pushAt p op = .ok s') : s'.Guarded rule Inv := by
  rw [Schedule.pushAt] at hpush
  cases hslot : s.slots[p]? with
  | none =>
    rw [hslot] at hpush
    cases hpush
  | some slot =>
    rw [hslot] at hpush
    obtain ⟨slot', hjoin, hpush⟩ := bind_eq_ok_iff.1 hpush
    cases hpush
    exact h.join hrule hslot (hop slot hslot) hjoin

/-- An operation is put into a slot that takes it, or into one that is made for it at the end. -/
theorem place (h : s.Guarded rule Inv) (hrule : rule.Maintains Inv) {p : Nat} {op : ω}
    (hfit : s.fits p op = true) (hpush : (s.padTo (p + 1)).pushAt p op = .ok s') :
    s'.Guarded rule Inv := by
  refine (h.padTo hrule (p + 1)).pushAt hrule (fun slot hslot => ?_) hpush
  rcases Nat.lt_or_ge p s.length with hp | hp
  · have hold : s.slots[p]? = some slot := (List.getElem?_append_left hp).symm.trans hslot
    exact h.unopposed_of_fits hfit hold
  · have hnew : slot ∈ List.replicate (p + 1 - s.length) Slot.empty :=
      List.mem_of_getElem? ((List.getElem?_append_right hp).symm.trans hslot)
    rw [List.eq_of_mem_replicate hnew]
    exact .inl rfl

/-- An operation is put into a fresh slot. -/
theorem placeFresh (h : s.Guarded rule Inv) (hrule : rule.Maintains Inv) {k : Nat} {op : ω}
    (hk : k ≤ s.length) (hpush : ((s.openSlot k).padTo (k + 1)).pushAt k op = .ok s') :
    s'.Guarded rule Inv := by
  have hopen := h.openSlot hrule hk
  refine (hopen.padTo hrule (k + 1)).pushAt hrule (fun slot hslot => ?_) hpush
  have hlen : k < (s.openSlot k).length := by
    rw [length_openSlot hk]
    exact Nat.lt_succ_of_le hk
  have hfresh : (s.openSlot k).slots[k]? = some slot :=
    (List.getElem?_append_left hlen).symm.trans hslot
  have hself : (s.openSlot k).slots[k]? = some Slot.empty :=
    List.getElem?_insertIdx_self.trans (if_pos hk)
  rw [hself] at hfresh
  cases hfresh
  exact .inl rfl

/-- An operation goes where the strategy puts it. -/
theorem pick (h : s.Guarded rule Inv) (hrule : rule.Maintains Inv) {k : Nat} (hk : k ≤ s.length)
    {op : ω} {strategy : Strategy} {p : Nat} {picked : Schedule ω}
    (hpick : s.pickSlot k op strategy = (p, picked))
    (hpush : (picked.padTo (p + 1)).pushAt p op = .ok s') :
    s'.Guarded rule Inv ∧ max k (p + 1) ≤ s'.length := by
  have hlength : s'.length = max picked.length (p + 1) :=
    (length_of_pushAt hpush).trans (length_padTo picked (p + 1))
  rcases pickSlot_cases h.sound hk op strategy with hcase | ⟨q, hcase, hle, hfit, -, -⟩
  · rw [hpick] at hcase
    cases hcase
    exact ⟨h.placeFresh hrule hk hpush, by omega⟩
  · rw [hpick] at hcase
    cases hcase
    exact ⟨h.place hrule hfit hpush, by omega⟩

/-! ### The requests -/

/-- Bare operations go in one after the other. -/
theorem insertItems (hrule : rule.Maintains Inv) {items : List (Item ω)} :
    ∀ {s : Schedule ω} {k next : Nat} {strategy : Strategy}, s.Guarded rule Inv → k ≤ s.length →
      (∀ slot, Item.slot slot ∉ items) → (s.insertItems k strategy items).answer = .ok next →
      (s.insertItems k strategy items).left.Guarded rule Inv := by
  induction items with
  | nil => exact fun h _ _ _ => h
  | cons item items ih =>
    intro s k next strategy h hk hbare hans
    cases item with
    | slot slot => exact absurd List.mem_cons_self (hbare slot)
    | operation op =>
      cases hpick : s.pickSlot k op strategy with
      | mk p picked =>
        cases hpush : (picked.padTo (p + 1)).pushAt p op with
        | error e =>
          rw [Schedule.insertItems, hpick] at hans
          dsimp only at hans
          rw [hpush] at hans
          cases hans
        | ok mid =>
          obtain ⟨hmid, hcursor⟩ := h.pick hrule hk hpick hpush
          rw [insertItems_of_pushAt hpick hpush] at hans ⊢
          exact ih hmid hcursor (fun slot hslot => hbare slot (List.mem_cons_of_mem _ hslot)) hans

theorem insert (h : s.Guarded rule Inv) (hrule : rule.Maintains Inv) {bundle : Bundle ω}
    (hbare : bundle.Bare) {index next : Nat} {strategy : Strategy}
    (hans : (s.insert index bundle strategy).answer = .ok next) :
    (s.insert index bundle strategy).left.Guarded rule Inv := by
  rw [Schedule.insert] at hans ⊢
  split at hans
  · cases hans
  · exact insertItems hrule h (Nat.min_le_right _ _) hbare hans

/-- Operations are written into the slots of a range that take them. -/
theorem fillRange (hrule : rule.Maintains Inv) {ops : List ω} :
    ∀ {s : Schedule ω} {i stop : Nat} {rest : List ω}, s.Guarded rule Inv →
      (s.fillRange i stop ops).answer = .ok rest → (s.fillRange i stop ops).left.Guarded rule Inv := by
  induction ops with
  | nil => exact fun h _ => h
  | cons op ops ih =>
    intro s i stop rest h hans
    rw [Schedule.fillRange] at hans ⊢
    cases hfit : s.firstFit? op i stop with
    | none => exact h
    | some j =>
      rw [hfit] at hans
      dsimp only at hans ⊢
      cases hpush : s.pushAt j op with
      | error e =>
        rw [hpush] at hans
        cases hans
      | ok mid =>
        rw [hpush] at hans
        obtain ⟨-, -, hfits⟩ := firstFit?_eq_some hfit
        exact ih (h.pushAt hrule (fun slot => h.unopposed_of_fits hfits) hpush) hans

theorem insertIntoRange (h : s.Guarded rule Inv) (hrule : rule.Maintains Inv) {bundle : Bundle ω}
    {start stop next : Nat} (hans : (s.insertIntoRange bundle start stop).answer = .ok next) :
    (s.insertIntoRange bundle start stop).left.Guarded rule Inv := by
  rw [Schedule.insertIntoRange] at hans ⊢
  split at hans
  · cases hans
  rename_i hrange
  rw [if_neg hrange]
  split at hans
  · cases hans
  dsimp only at hans ⊢
  cases hfilled : (s.fillRange start stop bundle.operations).answer with
  | error e =>
    rw [hfilled] at hans
    cases hans
  | ok rest =>
    have hguarded := fillRange hrule h hfilled
    rw [hfilled] at hans
    cases rest with
    | nil => exact hguarded
    | cons op rest => exact hguarded.insert hrule (Bundle.bare_ofList _) hans

/-- What is committed is guarded when the edited copy is. -/
theorem commit_map (h : s.Guarded rule Inv) {edit : Except Fault (Schedule ω)}
    (hedit : ∀ scratch, edit = .ok scratch → scratch.Guarded rule Inv)
    (hans : (s.commit (edit.map (·, ()))).answer = .ok ()) :
    (s.commit (edit.map (·, ()))).left.Guarded rule Inv := by
  obtain ⟨scratch, hscratch, hleft⟩ := commit_map_eq_ok hans
  have hguarded := hedit scratch hscratch
  rw [hleft]
  exact h.withSlots fun slot hslot => .inr ⟨hguarded.sound slot hslot, hguarded.holds slot hslot⟩

theorem insertGroups (h : s.Guarded rule Inv) (hrule : rule.Maintains Inv) {build : Build}
    {groups : List (Nat × List (Bundle ω))}
    (hbare : ∀ group ∈ groups, ∀ bundle ∈ group.2, bundle.Bare) {shift : Nat}
    (hgroups : s.insertGroups build shift groups = .ok s') : s'.Guarded rule Inv := by
  let kept : List (Nat × List (Bundle ω)) → Nat → Schedule ω → Prop := fun rest _ t =>
    t.Guarded rule Inv ∧ ∀ group ∈ rest, ∀ bundle ∈ group.2, bundle.Bare
  have hstart : kept groups shift s := ⟨h, hbare⟩
  have hend : ∃ shift', kept [] shift' s' := by
    rw [← List.map_id groups] at hgroups
    refine insertGroups_keeping id ?_ hstart hgroups
    rintro group rest shift t next ⟨ht, hbare⟩ - hans
    obtain ⟨hbundles, hbare⟩ := List.forall_mem_cons.1 hbare
    have hseq : (Bundle.sequence group.2.reverse).Bare :=
      Bundle.bare_sequence fun part hpart => hbundles part (List.mem_reverse.1 hpart)
    exact ⟨ht.insert hrule hseq hans, hbare⟩
  obtain ⟨_, hs', -⟩ := hend
  exact hs'

theorem batchInsert (h : s.Guarded rule Inv) (hrule : rule.Maintains Inv) {build : Build}
    {edits : List (Nat × Bundle ω)} (hbare : ∀ edit ∈ edits, edit.2.Bare)
    (hans : (s.batchInsert build edits).answer = .ok ()) :
    (s.batchInsert build edits).left.Guarded rule Inv := by
  refine h.commit_map (fun scratch hscratch => h.insertGroups hrule ?_ hscratch) hans
  intro group hgroup bundle hmem
  obtain ⟨edit, hedit, rfl⟩ := exists_edit_of_mem_group hgroup hmem
  exact hbare edit hedit

/-- Operations join a slot that is there. -/
theorem joinSlot (hrule : rule.Maintains Inv) {ops : List ω} {index : Nat} :
    ∀ {s s' : Schedule ω}, s.Guarded rule Inv → s.joinSlot index ops = .ok s' →
      s'.Guarded rule Inv := by
  induction ops with
  | nil =>
    intro s s' h hjoin
    cases hjoin
    exact h
  | cons op ops ih =>
    intro s s' h hjoin
    rw [Schedule.joinSlot] at hjoin
    cases hslot : s.slots[index]? with
    | none =>
      rw [hslot] at hjoin
      cases hjoin
    | some slot =>
      rw [hslot] at hjoin
      obtain ⟨-, -, hjoin⟩ := bind_eq_ok_iff.1 hjoin
      obtain ⟨slot', hpush, hjoin⟩ := bind_eq_ok_iff.1 hjoin
      split at hjoin
      · rename_i haccepts
        rw [accepts, h.acceptance] at haccepts
        exact ih (h.join hrule hslot (.inr haccepts) hpush) hjoin
      · cases hjoin

theorem joinEach (hrule : rule.Maintains Inv) {edits : List (Nat × Bundle ω)} :
    ∀ {s s' : Schedule ω}, s.Guarded rule Inv → s.joinEach edits = .ok s' →
      s'.Guarded rule Inv := by
  induction edits with
  | nil =>
    intro s s' h hjoin
    cases hjoin
    exact h
  | cons edit edits ih =>
    intro s s' h hjoin
    rw [Schedule.joinEach] at hjoin
    split at hjoin
    · obtain ⟨mid, hmid, hjoin⟩ := bind_eq_ok_iff.1 hjoin
      exact ih (joinSlot hrule h hmid) hjoin
    · cases hjoin

theorem batchInsertInto (h : s.Guarded rule Inv) (hrule : rule.Maintains Inv)
    {edits : List (Nat × Bundle ω)} (hans : (s.batchInsertInto edits).answer = .ok ()) :
    (s.batchInsertInto edits).left.Guarded rule Inv :=
  h.commit_map (fun _ hscratch => joinEach hrule h hscratch) hans

end Guarded

end Schedule

/-! ### Sequences of requests -/

namespace Edit

/-- The request puts operations into the schedule, and no finished slots. -/
def Places : Edit ω → Prop
  | insert _ bundle _ | append bundle _ => bundle.Bare
  | insertIntoRange _ _ _ | batchInsertInto _ => True
  | batchInsert edits => ∀ edit ∈ edits, edit.2.Bare
  | _ => False

theorem Places.sound {edit : Edit ω} (h : edit.Places) : edit.Sound := by
  cases edit with
  | insert _ bundle _ => exact Bundle.Bare.sound h
  | append bundle _ => exact Bundle.Bare.sound h
  | insertIntoRange => trivial
  | batchInsertInto => trivial
  | batchInsert edits => exact fun edit hedit => (h edit hedit).sound
  | insertAtFrontier => exact h.elim
  | batchRemove => exact h.elim
  | batchReplace => exact h.elim
  | setSlot => exact h.elim
  | splice => exact h.elim
  | removeSlot => exact h.elim

/-- A request that succeeds leaves the schedule guarded. -/
theorem Places.guarded {edit : Edit ω} (hedit : edit.Places) (hrule : rule.Maintains Inv)
    {build : Build} {s : Schedule ω} (hs : s.Guarded rule Inv)
    (hans : (edit.run build s).answer = .ok ()) : (edit.run build s).left.Guarded rule Inv := by
  cases edit with
  | insert index bundle strategy =>
    obtain ⟨next, h⟩ := Outcome.exists_answer_of_forget hans
    exact hs.insert hrule hedit h
  | append bundle strategy =>
    obtain ⟨next, h⟩ := Outcome.exists_answer_of_forget hans
    exact hs.insert hrule hedit h
  | insertIntoRange bundle start stop =>
    obtain ⟨next, h⟩ := Outcome.exists_answer_of_forget hans
    exact hs.insertIntoRange hrule h
  | batchInsert edits => exact hs.batchInsert hrule hedit hans
  | batchInsertInto edits => exact hs.batchInsertInto hrule hans
  | insertAtFrontier => exact hedit.elim
  | batchRemove => exact hedit.elim
  | batchReplace => exact hedit.elim
  | setSlot => exact hedit.elim
  | splice => exact hedit.elim
  | removeSlot => exact hedit.elim

end Edit

/-- **Placing never gets around the acceptance rule.** A property that the rule maintains, and that
every slot of a schedule has, is still one of every slot after a request that puts operations into
the schedule, and after any sequence of such requests, of which some may fail. In this all builds are
alike. -/
theorem placing_maintains (hrule : rule.Maintains Inv) {s : Schedule ω} (hs : s.Guarded rule Inv) :
    (∀ build, ∀ edit : Edit ω, edit.Places → (edit.run build s).answer = .ok () →
      ∀ slot ∈ (edit.run build s).left.slots, Inv slot) ∧
    ∀ build, ∀ edits : List (Edit ω), (∀ edit ∈ edits, edit.Places) →
      ∀ slot ∈ (edits.foldl (fun s edit => (edit.run build s).left) s).slots, Inv slot := by
  refine ⟨fun build edit hedit hans => (hedit.guarded hrule hs hans).holds,
    fun build edits hedits => ?_⟩
  have hall : (edits.foldl (fun s edit => (edit.run build s).left) s).Guarded rule Inv := by
    refine List.foldlRecOn (motive := fun t : Schedule ω => t.Guarded rule Inv) edits _ hs
      fun t ht edit hmem => ?_
    have hedit := hedits edit hmem
    cases hans : (edit.run build t).answer with
    | ok done => exact hedit.guarded hrule ht hans
    | error e =>
      rw [Edit.left_of_error ht.sound hedit.sound hans]
      exact ht
  exact hall.holds

/-- A rule that keeps operations of different names apart lets the first operation of the bundle
join the slot, and has a slot made for the second one. The batch that follows is refused. -/
theorem placing_maintains_names :
    let rule : Acceptance Instruction :=
      ⟨0, fun op slot => slot.operations.all fun a => a.name == op.name⟩
    let oneName : Slot Instruction → Prop := fun slot =>
      ∀ a ∈ slot.operations, ∀ b ∈ slot.operations, a.name = b.name
    let a : Instruction := { name := "a", resources := [.line 0] }
    let a' : Instruction := { name := "a", resources := [.line 1] }
    let b : Instruction := { name := "b", resources := [.line 2] }
    let s := (Schedule.ofSlots [⟨[a], SortedMap.insert ∅ (.line 0) 0⟩]).withAcceptance rule
    let edit : Edit Instruction := .append (.ofList [a', b]) .earliest
    let refused : Edit Instruction := .batchInsertInto [(0, .ofList [b])]
    (rule.Maintains oneName ∧ s.Guarded rule oneName ∧ edit.Places ∧
      (edit.run .checked s).answer = .ok () ∧ ∀ e ∈ [edit, refused], e.Places) ∧
      (∀ slot ∈ (edit.run .checked s).left.slots, oneName slot) ∧
      ∀ slot ∈ ([edit, refused].foldl (fun s edit => (edit.run .checked s).left) s).slots,
        oneName slot := by
  intro rule oneName a a' b s edit refused
  have hrule : rule.Maintains oneName := by
    refine ⟨fun slot _ hsmall x hx y hy => ?_, fun slot slot' op _ hone _ haccepts hpush => ?_⟩
    · obtain ⟨i, hi, rfl⟩ := List.getElem_of_mem hx
      obtain ⟨j, hj, rfl⟩ := List.getElem_of_mem hy
      obtain rfl : i = j := by omega
      rfl
    · have hsame : ∀ x ∈ slot.operations, x.name = op.name := by simpa [rule] using haccepts
      show ∀ x ∈ slot'.operations, ∀ y ∈ slot'.operations, x.name = y.name
      rw [Slot.operations_of_push hpush]
      grind
  have hslot : Slot.Sound ⟨[a], SortedMap.insert ∅ (.line 0) 0⟩ :=
    Slot.Sound.ofOperations (rfl : Slot.ofOperations [a] = .ok _)
  have hs : s.Guarded rule oneName :=
    .ofSlots hrule (List.forall_mem_singleton.2 ⟨hslot, Nat.le_refl 1⟩)
  have hedit : edit.Places := Bundle.bare_ofList _
  have hall : ∀ e ∈ [edit, refused], e.Places :=
    List.forall_mem_cons.2 ⟨hedit, List.forall_mem_singleton.2 trivial⟩
  have hans : (edit.run .checked s).answer = .ok () := rfl
  obtain ⟨hone, hmany⟩ := placing_maintains hrule hs
  exact ⟨⟨hrule, hs, hedit, hans, hall⟩, hone .checked edit hedit hans, hmany .checked _ hall⟩

end Timetable
