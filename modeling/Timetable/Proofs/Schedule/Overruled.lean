import Timetable.Proofs.Schedule.Acceptance

/-!
# Insertion behind a frontier overrules the acceptance rule

The slots behind a frontier are computed from resources alone, and no rule is asked when operations
join them. What an operation meets there are operations of its own request and those of one old slot,
at or after the start of the request. So a property that the rule maintains can be lost, but only
where the rule would have kept an operation from such company.

* `Schedule.withAcceptance_insertAtFrontier`: the request is the same one under every rule.
* `Acceptance.Overruled`, `Acceptance.Maintains.pushAll`: operations join a slot unasked.
* `Schedule.Joins`, `Schedule.joins_of_insertedBehind`: how the slots behind a frontier come about.
* `Acceptance.Permits`: the rule has nothing against the operations of the request.
* `insertAtFrontier_overrules`: what is kept, and when.
-/

namespace Timetable

variable {ω : Type} [Operation ω]

/-! ### No rule is asked -/

namespace Schedule

variable (rule : Acceptance ω)

theorem withAcceptance_pushAt (s : Schedule ω) (index : Nat) (op : ω) :
    (s.withAcceptance rule).pushAt index op = (s.pushAt index op).map (withAcceptance · rule) := by
  simp only [pushAt, withAcceptance]
  cases s.slots[index]? with
  | none => rfl
  | some slot =>
    dsimp only
    cases slot.push op <;> rfl

theorem withAcceptance_pushEach {landed : List (Nat × ω)} :
    ∀ (s : Schedule ω), (s.withAcceptance rule).pushEach landed
      = (s.pushEach landed).map (withAcceptance · rule) := by
  induction landed with
  | nil => exact fun _ => rfl
  | cons e landed ih =>
    intro s
    rw [pushEach, pushEach, withAcceptance_pushAt]
    cases s.pushAt e.1 e.2 with
    | error e => rfl
    | ok mid => exact ih mid

variable {build : Build}

omit [Operation ω] in
theorem withAcceptance_makeRoom (s : Schedule ω) (early late : Frontier) :
    (s.withAcceptance rule).makeRoom build early late
      = (s.makeRoom build early late).map fun e => (e.1.withAcceptance rule, e.2) := by
  simp only [makeRoom, withAcceptance]
  cases late.values.min? with
  | none => rfl
  | some place =>
    dsimp only
    split
    · rfl
    · cases Frontier.moveAlong build early late place (shortfall early late) <;> rfl

theorem withAcceptance_insertLanded (s : Schedule ω) (ops : List ω) (start : Nat)
    (frontier : Frontier) :
    (s.withAcceptance rule).insertLanded build ops start frontier
      = (s.insertLanded build ops start frontier).map fun e => (e.1.withAcceptance rule, e.2) := by
  have hslots : (s.withAcceptance rule).slots = s.slots := rfl
  rw [insertLanded, insertLanded, hslots]
  dsimp only
  split
  · rw [withAcceptance_makeRoom]
    cases s.makeRoom build _ _ with
    | error e => rfl
    | ok room =>
      generalize (landings start ops frontier).1 = landed
      show (room.1.padTo _ |>.withAcceptance rule).pushEach landed >>= _
        = ((room.1.padTo _).pushEach landed >>= _).map _
      rw [withAcceptance_pushEach]
      cases (room.1.padTo (landed.foldl (fun n e => max n (e.1 + 1)) 0)).pushEach landed <;> rfl
  · rfl

/-- The request is the same one under every rule. -/
theorem withAcceptance_insertAtFrontier (s : Schedule ω) (bundle : Bundle ω) (start : Nat)
    (frontier : Frontier) :
    (s.withAcceptance rule).insertAtFrontier build bundle start frontier
      = ⟨(s.insertAtFrontier build bundle start frontier).left.withAcceptance rule,
        (s.insertAtFrontier build bundle start frontier).answer⟩ := by
  rw [insertAtFrontier, insertAtFrontier]
  split
  · rfl
  · rw [withAcceptance_insertLanded]
    cases checkOperations bundle.operations with
    | error e => rfl
    | ok u =>
      cases checkFrontier frontier start (touchedBy bundle.operations).toList with
      | error e => rfl
      | ok u => cases s.insertLanded build bundle.operations start frontier <;> rfl

end Schedule

/-! ### Operations join a slot unasked -/

/-- In the course of the operations' joining the slot, one joins others that the rule keeps it
from. -/
def Acceptance.Overruled (rule : Acceptance ω) (base : Slot ω) (ops : List ω) : Prop :=
  ∃ taken op rest before after, ops = taken ++ op :: rest ∧ base.pushAll taken = .ok before ∧
    before.push op = .ok after ∧ ¬rule.Unopposed op before

variable {rule : Acceptance ω} {Inv : Slot ω → Prop}

theorem Acceptance.Maintains.pushAll (hrule : rule.Maintains Inv) {ops : List ω} :
    ∀ {base slot : Slot ω}, base.Sound → Inv base → base.pushAll ops = .ok slot →
      Inv slot ∨ rule.Overruled base ops := by
  induction ops with
  | nil =>
    intro base slot _ hinv h
    cases h
    exact .inl hinv
  | cons op ops ih =>
    intro base slot hs hinv h
    obtain ⟨mid, hpush, hrest⟩ := Slot.pushAll_cons.1 h
    by_cases hop : rule.Unopposed op base
    · refine (ih (hs.push hpush) (hrule.push hs hinv hop hpush) hrest).imp_right fun hover => ?_
      obtain ⟨taken, op', rest, before, after, rfl, htaken, hjoin, hveto⟩ := hover
      exact ⟨op :: taken, op', rest, before, after, rfl, Slot.pushAll_cons.2 ⟨mid, hpush, htaken⟩,
        hjoin, hveto⟩
    · exact .inr ⟨[], op, ops, base, mid, rfl, rfl, hpush, hop⟩

/-- A slot in which more operations stand has come about by their joining. -/
theorem Slot.Sound.pushAll_eq_ok {base slot : Slot ω} (hbase : base.Sound) (hslot : slot.Sound)
    {joined : List ω} (h : slot.operations = base.operations ++ joined) :
    base.pushAll joined = .ok slot := by
  have hnd := hslot.usesOnce
  rw [h] at hnd
  obtain ⟨slot', hpush⟩ := hbase.pushAll_eq_ok_iff.2 hnd
  rw [hpush, (hbase.pushAll hpush).ext hslot ((Slot.operations_of_pushAll hpush).trans h.symm)]

/-! ### The slots behind a frontier -/

/-- The slot is one of the schedule's at or after `start`, or an empty one, which operations of the
list have joined. -/
structure Schedule.Joins (s : Schedule ω) (start : Nat) (ops : List ω) (base : Slot ω)
    (joined : List ω) (slot : Slot ω) : Prop where
  from_base : base = .empty ∨ ∃ i, start ≤ i ∧ s.slots[i]? = some base
  sublist : joined.Sublist ops
  pushed : base.pushAll joined = .ok slot

namespace Schedule

/-- What the empty slot has, and each slot of the schedule, the slot that is joined has as well. -/
theorem Joins.base_of {P : Slot ω → Prop} {s : Schedule ω} {start : Nat} {ops joined : List ω}
    {base slot : Slot ω} (h : s.Joins start ops base joined slot) (hempty : P .empty)
    (hall : ∀ t ∈ s.slots, P t) : P base := by
  rcases h.from_base with rfl | ⟨i, -, hi⟩
  · exact hempty
  · exact hall base (List.mem_of_getElem? hi)

/-- A slot behind the edit is an old one, or operations have joined it. -/
theorem joins_of_insertedBehind {s s' : Schedule ω} (hs : s.Sound) (hs' : s'.Sound) {start : Nat}
    {ops : List ω} {moved : Nat → Nat} {landed : List (Nat × ω)}
    (h : InsertedBehind s start ops moved landed s') {slot : Slot ω} (hslot : slot ∈ s'.slots) :
    slot ∈ s.slots ∨ ∃ base joined, s.Joins start ops base joined slot := by
  obtain ⟨x, hx⟩ := List.mem_iff_getElem?.1 hslot
  have hsound := hs' slot hslot
  have hops := operationsAt_of_getElem? hx
  have hsub : (landedIn landed x).Sublist ops := by
    rw [← h.inserted]
    exact List.filter_sublist.map Prod.snd
  by_cases hmoved : ∃ i < s.slots.length, moved i = x
  · obtain ⟨i, hi, rfl⟩ := hmoved
    have hbase := List.getElem?_eq_getElem hi
    have hold := hs _ (List.getElem_mem hi)
    rw [h.layout.content_moved i hi, operationsAt_of_getElem? hbase] at hops
    by_cases hnil : landedIn landed (moved i) = []
    · rw [hnil, List.append_nil] at hops
      rw [← hold.ext hsound hops]
      exact .inl (List.getElem_mem hi)
    · obtain ⟨op, hop⟩ := List.exists_mem_of_ne_nil _ hnil
      have hle := h.start_le _ (mem_landedIn.1 hop)
      have hi' : start ≤ i := Nat.le_of_not_lt fun hlt => by
        rw [h.fixed i hlt hi] at hle
        omega
      exact .inr ⟨_, _, .inr ⟨i, hi', hbase⟩, hsub, hold.pushAll_eq_ok hsound hops.symm⟩
  · push Not at hmoved
    rw [h.layout.content_fresh x hmoved] at hops
    refine .inr ⟨.empty, landedIn landed x, .inl rfl, hsub, ?_⟩
    exact Slot.sound_empty.pushAll_eq_ok hsound hops.symm

end Schedule

/-! ### What is kept -/

/-- The rule keeps none of the operations from others of them, or from those of a schedule at or
after `start`, wherever they do not share resources. -/
def Acceptance.Permits (rule : Acceptance ω) (s : Schedule ω) (start : Nat) (ops : List ω) : Prop :=
  ∀ op ∈ ops, ∀ slot : Slot ω, slot.Sound →
    (∀ a ∈ slot.operations,
      (a ∈ ops ∨ ∃ i, start ≤ i ∧ a ∈ operationsAt s.slots i) ∧ ¬SharesResource a op) →
    rule.Unopposed op slot

theorem Acceptance.Permits.not_overruled {s : Schedule ω} {start : Nat} {ops : List ω}
    (h : rule.Permits s start ops) (hs : s.Sound) {base slot : Slot ω} {joined : List ω}
    (hjoins : s.Joins start ops base joined slot) : ¬rule.Overruled base joined := by
  rintro ⟨taken, op, rest, before, after, rfl, htaken, hjoin, hveto⟩
  have hbefore := (hjoins.base_of Slot.sound_empty hs).pushAll htaken
  have hmem : ∀ a ∈ taken ++ op :: rest, a ∈ ops := fun a ha => hjoins.sublist.subset ha
  refine hveto (h op (hmem op (by simp)) before hbefore fun a ha => ⟨?_, ?_⟩)
  · rw [Slot.operations_of_pushAll htaken] at ha
    rcases List.mem_append.1 ha with ha | ha
    · rcases hjoins.from_base with rfl | ⟨i, hi, hslot⟩
      · cases ha
      · exact .inr ⟨i, hi, mem_operationsAt.2 ⟨base, hslot, ha⟩⟩
    · exact .inl (hmem a (List.mem_append_left _ ha))
  · exact hbefore.not_sharesResource_of_push hjoin a ha

/-- **Insertion behind a frontier never asks the acceptance rule.** A request that succeeds does so
under every rule, with the same slots, in every build. A property that the rule maintains is lost at most where
operations of the request join a fresh slot, or one at or after `start`, and one of them does so
against the rule. When the rule permits the request it is not lost. -/
theorem insertAtFrontier_overrules (hrule : rule.Maintains Inv) {s : Schedule ω}
    (hs : s.Guarded rule Inv) {build : Build} {bundle : Bundle ω} {start : Nat}
    {frontier final : Frontier}
    (h : (s.insertAtFrontier build bundle start frontier).answer = .ok final) :
    (∀ other, (s.withAcceptance other).insertAtFrontier build bundle start frontier
      = ⟨(s.insertAtFrontier build bundle start frontier).left.withAcceptance other, .ok final⟩) ∧
    (∀ slot ∈ (s.insertAtFrontier build bundle start frontier).left.slots, Inv slot ∨
      ∃ base joined, s.Joins start bundle.operations base joined slot ∧
        rule.Overruled base joined) ∧
    (rule.Permits s start bundle.operations →
      ∀ slot ∈ (s.insertAtFrontier build bundle start frontier).left.slots, Inv slot) := by
  have hslots : ∀ slot ∈ (s.insertAtFrontier build bundle start frontier).left.slots, Inv slot ∨
      ∃ base joined, s.Joins start bundle.operations base joined slot ∧
        rule.Overruled base joined := by
    intro slot hslot
    obtain ⟨exact, moved, hlanded⟩ := Schedule.landed_insertAtFrontier hs.sound h
    rcases Schedule.joins_of_insertedBehind hs.sound hlanded.sound hlanded.behind hslot with
      hold | ⟨base, joined, hjoins⟩
    · exact .inl (hs.holds slot hold)
    · have hsound := hjoins.base_of Slot.sound_empty hs.sound
      have hempty := hrule.small _ Slot.sound_empty (Nat.zero_le 1)
      refine (hrule.pushAll hsound (hjoins.base_of hempty hs.holds) hjoins.pushed).imp_right ?_
      exact fun hover => ⟨base, joined, hjoins, hover⟩
  refine ⟨fun other => ?_, hslots, fun hpermits slot hslot => ?_⟩
  · rw [Schedule.withAcceptance_insertAtFrontier, h]
  · refine (hslots slot hslot).resolve_right fun hover => ?_
    obtain ⟨base, joined, hjoins, hover⟩ := hover
    exact hpermits.not_overruled hs.sound hjoins hover

/-- Two operations on one resource come into slots of their own, and one operation in a slot is all
that the rule allows. -/
theorem insertAtFrontier_overrules_none :
    let a : Instruction := { name := "a", resources := [.line 0] }
    let x : Instruction := { name := "x", resources := [.line 1] }
    let rule : Acceptance Instruction := .atMost 1
    let alone : Slot Instruction → Prop := fun slot => slot.operations.length ≤ 1
    let s := (Schedule.ofSlots [⟨[a], SortedMap.insert ∅ (.line 0) 0⟩]).withAcceptance rule
    let bundle : Bundle Instruction := .ofList [x, x]
    let final : Frontier := SortedMap.ofList [(.line 1, 3)]
    (rule.Maintains alone ∧ s.Guarded rule alone ∧
      (s.insertAtFrontier .checked bundle 1 ∅).answer = .ok final ∧ rule.Permits s 1 bundle.operations) ∧
      ∀ slot ∈ (s.insertAtFrontier .checked bundle 1 ∅).left.slots, alone slot := by
  intro a x rule alone s bundle final
  have hrule : rule.Maintains alone := Acceptance.maintains_atMost (Nat.le_refl 1)
  have hslot : Slot.Sound ⟨[a], SortedMap.insert ∅ (.line 0) 0⟩ :=
    Slot.Sound.ofOperations (rfl : Slot.ofOperations [a] = .ok _)
  have hs : s.Guarded rule alone :=
    .ofSlots hrule (List.forall_mem_singleton.2 ⟨hslot, Nat.le_refl 1⟩)
  have hok : (s.insertAtFrontier .checked bundle 1 ∅).answer = .ok final := by decide +kernel
  have hpermits : rule.Permits s 1 bundle.operations := by
    have hx : ∀ op ∈ bundle.operations, op = x := by
      show ∀ op ∈ [x, x], op = x
      simp
    refine fun op hop slot _ hpresent => .inl (List.eq_nil_iff_forall_not_mem.2 fun b hb => ?_)
    obtain ⟨hmem | ⟨i, hi, hat⟩, hshare⟩ := hpresent b hb
    · rw [hx b hmem, hx op hop] at hshare
      exact hshare ⟨.line 1, List.mem_singleton.2 rfl, List.mem_singleton.2 rfl⟩
    · have hlt : i < 1 := lt_length_of_mem_operationsAt hat
      omega
  exact ⟨⟨hrule, hs, hok, hpermits⟩, (insertAtFrontier_overrules hrule hs hok).2.2 hpermits⟩

/-- An operation joins another one in a slot which by the rule holds one operation. -/
theorem insertAtFrontier_overrules_atMost :
    let a : Instruction := { name := "a", resources := [.line 0] }
    let x : Instruction := { name := "x", resources := [.line 1] }
    let rule : Acceptance Instruction := .atMost 1
    let alone : Slot Instruction → Prop := fun slot => slot.operations.length ≤ 1
    let s := (Schedule.ofSlots [⟨[a], SortedMap.insert ∅ (.line 0) 0⟩]).withAcceptance rule
    let bundle : Bundle Instruction := .ofList [x]
    let final : Frontier := SortedMap.ofList [(.line 1, 1)]
    rule.Maintains alone ∧ s.Guarded rule alone ∧ bundle.Bare ∧
      (s.insertAtFrontier .checked bundle 0 ∅).answer = .ok final ∧
      ¬∀ slot ∈ (s.insertAtFrontier .checked bundle 0 ∅).left.slots, alone slot := by
  intro a x rule alone s bundle final
  have hrule : rule.Maintains alone := Acceptance.maintains_atMost (Nat.le_refl 1)
  have hslot : Slot.Sound ⟨[a], SortedMap.insert ∅ (.line 0) 0⟩ :=
    Slot.Sound.ofOperations (rfl : Slot.ofOperations [a] = .ok _)
  have hs : s.Guarded rule alone :=
    .ofSlots hrule (List.forall_mem_singleton.2 ⟨hslot, Nat.le_refl 1⟩)
  have hmeet : ¬∀ slot ∈ (s.insertAtFrontier .checked bundle 0 ∅).left.slots,
      slot.operations.length ≤ 1 := by decide +kernel
  exact ⟨hrule, hs, Bundle.bare_ofList _, by decide +kernel, hmeet⟩

end Timetable
