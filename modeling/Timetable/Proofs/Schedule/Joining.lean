import Timetable.Proofs.Schedule.Placement

/-!
# Batches of additions to slots

A batch adds operations to slots one at a time, and each of them has to find its slot free of its
resources when its turn comes. Of two operations on one resource the later one does not, whichever
that is. So where no acceptance rule looks at what a slot holds meanwhile, the order does not count:
a batch goes in exactly when its edits fit together.

* `FitTogether`: what is asked of the edits; in a slot that several of them name, all count.
* `Joined`: what the edits leave behind.
* `FitTogether.append_iff`: some edits fit together with others when these fit what they leave.
* `Schedule.joinEach_eq_ok_iff`, `Schedule.batchInsertInto_eq_ok_iff_of_perm`: which edits go in,
  whatever their order.
* `batchInsertInto_exact`: which batches go in, and what is then in the slots.
-/

namespace Timetable

variable {ω : Type} [Operation ω]

/-- The operations that the edits add to the slot of the index, in the order of the edits. -/
def joinedAt (edits : List (Nat × Bundle ω)) (i : Nat) : List ω :=
  (edits.filter fun edit => edit.1 = i).flatMap fun edit => edit.2.operations

/-- The edits fit together and into the schedule. -/
structure FitTogether (s : Schedule ω) (edits : List (Nat × Bundle ω)) : Prop where
  inside : ∀ edit ∈ edits, edit.1 < s.length
  acyclic : ∀ edit ∈ edits, ∀ op ∈ edit.2.operations, nestsInItself op = false
  /-- In no slot a resource is named twice, be it by one operation or by two, old or new. -/
  distinct : ∀ i, ((operationsAt s.slots i ++ joinedAt edits i).flatMap resources).Nodup

/-- The schedule `s'` is the schedule `s` with the edits carried out. -/
structure Joined (s : Schedule ω) (edits : List (Nat × Bundle ω)) (s' : Schedule ω) : Prop where
  sound : s'.Sound
  acceptance : s'.acceptance = s.acceptance
  length_eq : s'.length = s.length
  content : ∀ i, operationsAt s'.slots i = operationsAt s.slots i ++ joinedAt edits i
  unchanged : ∀ i, (∀ edit ∈ edits, edit.1 ≠ i) → s'.slots[i]? = s.slots[i]?

/-! ### What the edits add -/

omit [Operation ω] in
theorem joinedAt_append (edits edits' : List (Nat × Bundle ω)) (i : Nat) :
    joinedAt (edits ++ edits') i = joinedAt edits i ++ joinedAt edits' i := by
  rw [joinedAt, List.filter_append, List.flatMap_append]
  rfl

omit [Operation ω] in
theorem joinedAt_singleton (index : Nat) (bundle : Bundle ω) (i : Nat) :
    joinedAt [(index, bundle)] i = if index = i then bundle.operations else [] := by
  by_cases h : index = i <;> simp [joinedAt, h]

omit [Operation ω] in
theorem joinedAt_perm {edits edits' : List (Nat × Bundle ω)} (h : edits.Perm edits') (i : Nat) :
    (joinedAt edits i).Perm (joinedAt edits' i) :=
  (h.filter _).flatMap_right _

namespace Joined

variable {s mid s' : Schedule ω} {edits edits' : List (Nat × Bundle ω)}

theorem refl (hs : s.Sound) : Joined s [] s where
  sound := hs
  acceptance := rfl
  length_eq := rfl
  content i := (List.append_nil (operationsAt s.slots i)).symm
  unchanged _ _ := rfl

theorem trans (h : Joined s edits mid) (h' : Joined mid edits' s') :
    Joined s (edits ++ edits') s' where
  sound := h'.sound
  acceptance := h'.acceptance.trans h.acceptance
  length_eq := h'.length_eq.trans h.length_eq
  content i := by rw [h'.content, h.content, joinedAt_append, List.append_assoc]
  unchanged i hne := by
    obtain ⟨hfirst, hlast⟩ := List.forall_mem_append.1 hne
    exact (h'.unchanged i hlast).trans (h.unchanged i hfirst)

/-- Operations that have been pushed into a slot are those of one edit. -/
theorem of_pushAll (hs : s.Sound) {index : Nat} {slot slot' : Slot ω}
    (hslot : s.slots[index]? = some slot) {bundle : Bundle ω}
    (hpush : slot.pushAll bundle.operations = .ok slot') :
    Joined s [(index, bundle)] { s with slots := s.slots.set index slot' } where
  sound := hs.set ((hs slot (List.mem_of_getElem? hslot)).pushAll hpush) index
  acceptance := rfl
  length_eq := List.length_set
  content i := by
    have hlt := (List.getElem?_eq_some_iff.1 hslot).1
    rw [operationsAt_set hlt, joinedAt_singleton]
    by_cases h : i = index
    · rw [if_pos h, if_pos h.symm, Slot.operations_of_pushAll hpush, h, operationsAt_of_getElem? hslot]
    · rw [if_neg h, if_neg (Ne.symm h), List.append_nil]
  unchanged i hne := List.getElem?_set_ne (hne (index, bundle) List.mem_cons_self)

end Joined

/-! ### Edits that fit together -/

theorem Schedule.Sound.nodup_operationsAt {s : Schedule ω} (hs : s.Sound) (i : Nat) :
    ((operationsAt s.slots i).flatMap resources).Nodup := by
  cases hslot : s.slots[i]? with
  | none => simp [operationsAt, hslot]
  | some slot =>
    rw [operationsAt_of_getElem? hslot]
    exact (hs slot (List.mem_of_getElem? hslot)).usesOnce

namespace FitTogether

variable {s mid : Schedule ω} {edits edits' : List (Nat × Bundle ω)}

theorem nil (hs : s.Sound) : FitTogether s [] where
  inside := by simp
  acyclic := by simp
  distinct i := by
    rw [joinedAt, List.filter_nil, List.flatMap_nil, List.append_nil]
    exact hs.nodup_operationsAt i

/-- The order of the edits does not count. -/
theorem of_perm (h : FitTogether s edits) (hperm : edits.Perm edits') : FitTogether s edits' where
  inside edit hedit := h.inside edit (hperm.mem_iff.2 hedit)
  acyclic edit hedit := h.acyclic edit (hperm.mem_iff.2 hedit)
  distinct i := by
    have hslot := (joinedAt_perm hperm i).append_left (operationsAt s.slots i)
    exact (hslot.flatMap_right resources).nodup_iff.1 (h.distinct i)

theorem left (h : FitTogether s (edits ++ edits')) : FitTogether s edits where
  inside := (List.forall_mem_append.1 h.inside).1
  acyclic := (List.forall_mem_append.1 h.acyclic).1
  distinct i := by
    have hnd := h.distinct i
    rw [joinedAt_append, ← List.append_assoc, List.flatMap_append] at hnd
    exact (List.nodup_append.1 hnd).1

/-- Some edits and others fit together when the others fit what the first ones leave behind. -/
theorem append_iff (h : Joined s edits mid) :
    FitTogether s (edits ++ edits') ↔ FitTogether s edits ∧ FitTogether mid edits' := by
  have hcontent : ∀ i, operationsAt s.slots i ++ joinedAt (edits ++ edits') i
      = operationsAt mid.slots i ++ joinedAt edits' i := by
    intro i
    rw [h.content, joinedAt_append, List.append_assoc]
  constructor
  · intro hfit
    refine ⟨hfit.left, fun edit hedit => ?_, (List.forall_mem_append.1 hfit.acyclic).2, fun i => ?_⟩
    · rw [h.length_eq]
      exact hfit.inside edit (List.mem_append_right _ hedit)
    · rw [← hcontent]
      exact hfit.distinct i
  · rintro ⟨hfit, hfit'⟩
    refine ⟨List.forall_mem_append.2 ⟨hfit.inside, fun edit hedit => ?_⟩,
      List.forall_mem_append.2 ⟨hfit.acyclic, hfit'.acyclic⟩, fun i => ?_⟩
    · rw [← h.length_eq]
      exact hfit'.inside edit hedit
    · rw [hcontent]
      exact hfit'.distinct i

/-- One edit fits when its operations can be pushed into their slot. -/
theorem singleton_iff (hs : s.Sound) {index : Nat} {slot : Slot ω}
    (hslot : s.slots[index]? = some slot) {bundle : Bundle ω} :
    FitTogether s [(index, bundle)] ↔
      (∀ op ∈ bundle.operations, nestsInItself op = false) ∧
        ((slot.operations ++ bundle.operations).flatMap resources).Nodup := by
  have hops : operationsAt s.slots index = slot.operations := operationsAt_of_getElem? hslot
  constructor
  · intro h
    refine ⟨h.acyclic (index, bundle) List.mem_cons_self, ?_⟩
    have hnd := h.distinct index
    rwa [joinedAt_singleton, if_pos rfl, hops] at hnd
  · rintro ⟨hacyclic, hnd⟩
    refine ⟨?_, ?_, fun i => ?_⟩
    · rintro edit hedit
      rw [List.mem_singleton.1 hedit]
      exact (List.getElem?_eq_some_iff.1 hslot).1
    · rintro edit hedit
      rw [List.mem_singleton.1 hedit]
      exact hacyclic
    · rw [joinedAt_singleton]
      by_cases h : index = i
      · rwa [if_pos h, ← h, hops]
      · rw [if_neg h, List.append_nil]
        exact hs.nodup_operationsAt i

end FitTogether

/-! ### The run of a batch -/

namespace Schedule

/-- Without a rule, operations join a slot when each passes its check and all can be pushed. -/
theorem joinSlot_eq_ok_iff {s s' : Schedule ω} (hrule : s.acceptance = none) {index : Nat}
    {slot : Slot ω} (hslot : s.slots[index]? = some slot) {ops : List ω} :
    s.joinSlot index ops = .ok s' ↔ (∀ op ∈ ops, checkOperation op = .ok ()) ∧
      ∃ slot', slot.pushAll ops = .ok slot' ∧ s' = { s with slots := s.slots.set index slot' } := by
  induction ops generalizing s slot with
  | nil =>
    obtain ⟨hlt, rfl⟩ := List.getElem?_eq_some_iff.1 hslot
    have hsame : { s with slots := s.slots.set index s.slots[index] } = s := by
      rw [List.set_getElem_self]
    constructor
    · intro h
      cases h
      exact ⟨by simp, _, rfl, hsame.symm⟩
    · rintro ⟨-, slot', hpush, rfl⟩
      cases hpush
      exact congrArg Except.ok hsame.symm
  | cons op ops ih =>
    have haccepts : s.accepts op slot = true := by rw [accepts, hrule]
    have hlt := (List.getElem?_eq_some_iff.1 hslot).1
    -- The operations that are left find the slot that the first one has been pushed into.
    have hrest : ∀ mid,
        Schedule.joinSlot { s with slots := s.slots.set index mid } index ops = .ok s' ↔
        (∀ op ∈ ops, checkOperation op = .ok ()) ∧
          ∃ slot', mid.pushAll ops = .ok slot' ∧
            s' = { s with slots := s.slots.set index slot' } := by
      intro mid
      rw [ih (s := { s with slots := s.slots.set index mid }) hrule (List.getElem?_set_self hlt)]
      simp only [List.set_set]
    rw [joinSlot, hslot]
    simp only [bind_eq_ok_iff, haccepts, if_true, hrest, List.forall_mem_cons, Slot.pushAll_cons]
    constructor
    · rintro ⟨⟨⟩, hcheck, mid, hpush, hchecks, slot', hpushes, rfl⟩
      exact ⟨⟨hcheck, hchecks⟩, slot', ⟨mid, hpush, hpushes⟩, rfl⟩
    · rintro ⟨⟨hcheck, hchecks⟩, slot', ⟨mid, hpush, hpushes⟩, rfl⟩
      exact ⟨(), hcheck, mid, hpush, hchecks, slot', hpushes, rfl⟩

/-- The first edit goes in when it fits. -/
theorem joinSlot_iff_fitTogether {s : Schedule ω} (hs : s.Sound) (hrule : s.acceptance = none)
    {index : Nat} (hindex : index < s.length) {bundle : Bundle ω} :
    (∃ s', s.joinSlot index bundle.operations = .ok s') ↔ FitTogether s [(index, bundle)] := by
  have hslot : s.slots[index]? = some s.slots[index] := List.getElem?_eq_getElem hindex
  have hsound : s.slots[index].Sound := hs _ (List.getElem_mem hindex)
  rw [FitTogether.singleton_iff hs hslot, ← hsound.pushAll_eq_ok_iff]
  constructor
  · rintro ⟨s', h⟩
    obtain ⟨hchecks, slot', hpush, -⟩ := (joinSlot_eq_ok_iff hrule hslot).1 h
    exact ⟨fun op hop => (checkOperation_eq_ok_iff.1 (hchecks op hop)).2, slot', hpush⟩
  · rintro ⟨hacyclic, slot', hpush⟩
    refine ⟨_, (joinSlot_eq_ok_iff hrule hslot).2 ⟨fun op hop => ?_, slot', hpush, rfl⟩⟩
    have hnd : ∀ op ∈ bundle.operations, (resources op).Nodup := by
      have hall := hsound.pushAll_eq_ok_iff.1 ⟨slot', hpush⟩
      rw [List.flatMap_append] at hall
      exact (List.nodup_flatMap.1 (List.nodup_append.1 hall).2.1).1
    exact checkOperation_eq_ok_iff.2 ⟨hnd op hop, hacyclic op hop⟩

theorem joined_of_joinSlot {s s' : Schedule ω} (hs : s.Sound) (hrule : s.acceptance = none)
    {index : Nat} (hindex : index < s.length) {bundle : Bundle ω}
    (h : s.joinSlot index bundle.operations = .ok s') : Joined s [(index, bundle)] s' := by
  have hslot : s.slots[index]? = some s.slots[index] := List.getElem?_eq_getElem hindex
  obtain ⟨-, slot', hpush, rfl⟩ := (joinSlot_eq_ok_iff hrule hslot).1 h
  exact Joined.of_pushAll hs hslot hpush

/-- A run that succeeds carries the edits out. -/
theorem joined_of_joinEach {edits : List (Nat × Bundle ω)} {s s' : Schedule ω} (hs : s.Sound)
    (hrule : s.acceptance = none) (h : s.joinEach edits = .ok s') : Joined s edits s' := by
  induction edits generalizing s with
  | nil =>
    cases h
    exact Joined.refl hs
  | cons edit edits ih =>
    obtain ⟨index, bundle⟩ := edit
    rw [joinEach] at h
    split at h
    · rename_i hindex
      obtain ⟨mid, hjoin, hrest⟩ := bind_eq_ok_iff.1 h
      have hfirst := joined_of_joinSlot hs hrule hindex hjoin
      exact hfirst.trans (ih hfirst.sound (hfirst.acceptance.trans hrule) hrest)
    · cases h

/-- The edits go in when they fit together. -/
theorem joinEach_eq_ok_iff {edits : List (Nat × Bundle ω)} {s : Schedule ω} (hs : s.Sound)
    (hrule : s.acceptance = none) : (∃ s', s.joinEach edits = .ok s') ↔ FitTogether s edits := by
  induction edits generalizing s with
  | nil => exact ⟨fun _ => FitTogether.nil hs, fun _ => ⟨s, rfl⟩⟩
  | cons edit edits ih =>
    obtain ⟨index, bundle⟩ := edit
    rw [joinEach]
    by_cases hindex : index < s.length
    · rw [if_pos hindex]
      simp only [bind_eq_ok_iff]
      -- Both sides ask for the first edit, and for the others after it.
      constructor
      · rintro ⟨s', mid, hjoin, hrest⟩
        have hfirst := joined_of_joinSlot hs hrule hindex hjoin
        refine (FitTogether.append_iff hfirst).2
          ⟨(joinSlot_iff_fitTogether hs hrule hindex).1 ⟨mid, hjoin⟩, ?_⟩
        exact (ih hfirst.sound (hfirst.acceptance.trans hrule)).1 ⟨s', hrest⟩
      · intro hfit
        obtain ⟨mid, hjoin⟩ := (joinSlot_iff_fitTogether hs hrule hindex).2 hfit.left
        have hfirst := joined_of_joinSlot hs hrule hindex hjoin
        have hothers := ((FitTogether.append_iff hfirst).1 hfit).2
        obtain ⟨s', hrest⟩ := (ih hfirst.sound (hfirst.acceptance.trans hrule)).2 hothers
        exact ⟨s', mid, hjoin, hrest⟩
    · rw [if_neg hindex]
      constructor
      · rintro ⟨s', h⟩
        cases h
      · exact fun hfit => absurd (hfit.inside (index, bundle) List.mem_cons_self) hindex

/-- A batch goes in when its edits fit together. -/
theorem batchInsertInto_eq_ok_iff {s : Schedule ω} (hs : s.Sound) (hrule : s.acceptance = none)
    {edits : List (Nat × Bundle ω)} :
    (s.batchInsertInto edits).answer = .ok () ↔ FitTogether s edits := by
  rw [← joinEach_eq_ok_iff hs hrule, batchInsertInto]
  constructor
  · intro h
    obtain ⟨scratch, hjoin, -⟩ := commit_map_eq_ok h
    exact ⟨scratch, hjoin⟩
  · rintro ⟨scratch, hjoin⟩
    rw [hjoin]
    rfl

/-- Of two batches with the same edits both go in or neither does. -/
theorem batchInsertInto_eq_ok_iff_of_perm {s : Schedule ω} (hs : s.Sound)
    (hrule : s.acceptance = none) {edits edits' : List (Nat × Bundle ω)} (h : edits.Perm edits') :
    (s.batchInsertInto edits).answer = .ok () ↔ (s.batchInsertInto edits').answer = .ok () := by
  rw [batchInsertInto_eq_ok_iff hs hrule, batchInsertInto_eq_ok_iff hs hrule]
  exact ⟨fun hfit => hfit.of_perm h, fun hfit => hfit.of_perm h.symm⟩

/-- A batch that goes in has been carried out. -/
theorem joined_of_batchInsertInto {s : Schedule ω} (hs : s.Sound) (hrule : s.acceptance = none)
    {edits : List (Nat × Bundle ω)} (h : (s.batchInsertInto edits).answer = .ok ()) :
    Joined s edits (s.batchInsertInto edits).left := by
  rw [batchInsertInto] at h ⊢
  obtain ⟨scratch, hjoin, hleft⟩ := commit_map_eq_ok h
  have hjoined := joined_of_joinEach hs hrule hjoin
  rw [hleft]
  exact ⟨hjoined.sound, rfl, hjoined.length_eq, hjoined.content, hjoined.unchanged⟩

end Schedule

/-- **A batch of additions goes in exactly when its edits fit together.** Every index is one of the
schedule, no operation is nested in itself, and no slot names a resource twice with all that the
edits put into it. Then each slot holds its old operations and behind them those of the edits that
name it, in the order of the edits; the other slots and the length are as they were. -/
theorem batchInsertInto_exact {s : Schedule ω} (hs : s.Sound) (hrule : s.acceptance = none)
    (edits : List (Nat × Bundle ω)) :
    ((s.batchInsertInto edits).answer = .ok () ↔ FitTogether s edits) ∧
      (FitTogether s edits → Joined s edits (s.batchInsertInto edits).left) := by
  refine ⟨Schedule.batchInsertInto_eq_ok_iff hs hrule, fun hfit => ?_⟩
  have hok := (Schedule.batchInsertInto_eq_ok_iff hs hrule).2 hfit
  exact Schedule.joined_of_batchInsertInto hs hrule hok

/-- Three edits, two of them for one slot; one brings a finished slot along with an operation. -/
theorem batchInsertInto_exact_shared_slot :
    let op (name : String) (lines : List Resource) : Instruction := { name, resources := lines }
    let s := Schedule.ofSlots ([[op "a" [.line 0]], []].map Slot.ofApart)
    let edits : List (Nat × Bundle Instruction) :=
      [(0, .sequence [.slot (Slot.ofApart [op "b" [.line 1], op "c" [.line 2]]),
          .operation (op "d" [.line 3])]),
        (1, .operation (op "e" [.line 0])), (0, .operation (op "f" [.line 4]))]
    (s.Sound ∧ s.acceptance = none) ∧ (s.batchInsertInto edits).answer = .ok () ∧
      FitTogether s edits ∧ Joined s edits (s.batchInsertInto edits).left := by
  intro op s edits
  have hs : s.Sound := Slot.sound_map_ofApart (by decide)
  have hrule : s.acceptance = none := rfl
  obtain ⟨hexact, hjoined⟩ := batchInsertInto_exact hs hrule edits
  have hok : (s.batchInsertInto edits).answer = .ok () := by decide +kernel
  have hfit := hexact.1 hok
  exact ⟨⟨hs, hrule⟩, hok, hfit, hjoined hfit⟩

end Timetable
