import Timetable.Proofs.Schedule.Insertion

/-!
# One operation, as early as it can go

An operation that goes in as early as it can either moves back from the cursor, over slots that it
does not conflict with, or is refused by the slot at the cursor. Then it goes into the slot before
the cursor, if that one takes it, or into a fresh slot. The slot before the cursor is asked for its
resources and for the acceptance rule, but not for its keys.

* `Schedule.pickSlot_earliest_cases`: the three ways.
* `EarliestStep`: what a step does: which slots move, where operations on the same resources and
  the same keys stand, and that the slots behind the cursor are old ones.
* `Schedule.exists_earliestStep`: an operation that names no resource twice goes in by such a step.
* `EarliestSteps`, `Schedule.exists_earliestSteps`: one step after the other, and the operations of
  a bundle go in by such steps.
-/

namespace Timetable

variable {ω : Type} [Operation ω]

namespace Schedule

/-! ### Slots that an edit leaves alone -/

theorem fits_of_length_le {s : Schedule ω} {k : Nat} (h : s.length ≤ k) (op : ω) :
    s.fits k op = true := by
  rw [fits, List.getElem?_eq_none h]

/-- Slots that are the same take the same operations. -/
theorem fits_congr {s s' : Schedule ω} {i j : Nat} (hrule : s'.acceptance = s.acceptance)
    (hslot : s'.slots[j]? = s.slots[i]?) (op : ω) : s'.fits j op = s.fits i op := by
  simp only [fits, accepts, hslot, hrule]

theorem pushAt_eq_ok {s s' : Schedule ω} {p : Nat} {op : ω} (h : s.pushAt p op = .ok s') :
    ∃ slot, s' = { s with slots := s.slots.set p slot } := by
  rw [pushAt] at h
  split at h
  · cases h
  · obtain ⟨slot, -, h⟩ := bind_eq_ok_iff.1 h
    cases h
    exact ⟨slot, rfl⟩

theorem length_of_pushAt {s s' : Schedule ω} {p : Nat} {op : ω} (h : s.pushAt p op = .ok s') :
    s'.length = s.length := by
  obtain ⟨slot, rfl⟩ := pushAt_eq_ok h
  exact List.length_set

theorem getElem?_of_pushAt {s s' : Schedule ω} {p : Nat} {op : ω} (h : s.pushAt p op = .ok s')
    {i : Nat} (hi : p ≠ i) : s'.slots[i]? = s.slots[i]? := by
  obtain ⟨slot, rfl⟩ := pushAt_eq_ok h
  exact List.getElem?_set_ne hi

omit [Operation ω] in
theorem getElem?_padTo {s : Schedule ω} {n i : Nat} (h : n ≤ i) :
    (s.padTo n).slots[i]? = s.slots[i]? := by
  have hlen : (s.padTo n).length = max s.length n := s.length_padTo n
  rcases Nat.lt_or_ge i s.length with hi | hi
  · exact List.getElem?_append_left hi
  · have hend : (s.padTo n).slots.length ≤ i := by
      show (s.padTo n).length ≤ i
      omega
    rw [List.getElem?_eq_none hi, List.getElem?_eq_none hend]

omit [Operation ω] in
theorem length_openSlot {s : Schedule ω} {k : Nat} (hk : k ≤ s.length) :
    (s.openSlot k).length = s.length + 1 := List.length_insertIdx_of_le_length hk _

omit [Operation ω] in
/-- Behind a fresh slot the old ones stand one place further on. -/
theorem getElem?_openSlot {s : Schedule ω} {k i : Nat} (h : k ≤ i) :
    (s.openSlot k).slots[i + 1]? = s.slots[i]? :=
  List.getElem?_insertIdx_of_gt (Nat.lt_succ_of_le h)

/-! ### The three ways -/

/-- The operation moves back as far as it can, unless the slot at the cursor refuses it. -/
theorem pickSlot_earliest_cases {s : Schedule ω} {k : Nat} (hk : k ≤ s.length) (op : ω) :
    (∃ p, s.pickSlot k op .earliest = (p, s) ∧ p ≤ k ∧ s.fits p op = true ∧
        ∀ i, p ≤ i → i < k → s.CanCross op i) ∨
      s.fits k op = false ∧
        (s.pickSlot k op .earliest = (k, s.openSlot k) ∨
          ∃ p, p + 1 = k ∧ s.pickSlot k op .earliest = (p, s) ∧ s.fits p op = true) := by
  rw [pickSlot]
  cases hfit : s.fits k op with
  | true =>
    refine .inl ⟨_, rfl, ?_⟩
    rcases (s.isLeast_earliestSlot op hk (Nat.le_refl k)).1 with h | ⟨hlt, hpfit, hcross⟩
    · rw [h]
      exact ⟨Nat.le_refl k, hfit, fun i hki hi => absurd hi (by omega)⟩
    · exact ⟨Nat.le_of_lt hlt, hpfit, hcross⟩
  | false =>
    refine .inr ⟨rfl, ?_⟩
    show s.inlineSlot k op = _ ∨ ∃ p, p + 1 = k ∧ s.inlineSlot k op = _ ∧ _
    rw [inlineSlot]
    split
    · rename_i h
      simp only [Bool.and_eq_true, decide_eq_true_eq] at h
      obtain ⟨⟨hpos, -⟩, hbefore⟩ := h
      exact .inr ⟨k - 1, by omega, rfl, hbefore⟩
    · exact .inl rfl

end Schedule

/-! ### What a step does -/

/-- An operation goes in as early as it can, with the cursor at `k`, and lands in the slot `p`. -/
structure EarliestStep (s : Schedule ω) (k : Nat) (op : ω) (moved : Nat → Nat) (p : Nat)
    (s' : Schedule ω) : Prop extends Insertion .earliest s k moved [(p, op)] s' (max k (p + 1)) where
  /-- From the cursor on, the slots are old ones that were at the cursor or later. -/
  tail : ∀ j, max k (p + 1) ≤ j → ∃ i, k ≤ i ∧ moved i = j ∧ s'.slots[j]? = s.slots[i]?
  /-- Of the operations before the cursor, one that shares a key with it is in an earlier slot, or
  in its own if the slot at the cursor has refused it. -/
  keys : ∀ i < k, ∀ a ∈ operationsAt s.slots i, SharesKey a op →
    i < p ∨ i = p ∧ p < moved k ∧ s.fits k op = false
  /-- Of the operations at the cursor or later, one that shares a resource with it is in a later
  slot. -/
  before : ∀ i, k ≤ i → ∀ a ∈ operationsAt s.slots i, SharesResource op a → p < moved i
  /-- Either a slot is opened at the cursor, in front of an old one, or no slot moves. -/
  opens : moved = Layout.skip k ∧ p = k ∧ k < s.length ∧ s'.length = s.length + 1 ∨
    moved = id ∧ p ≤ k ∧ s'.length = max s.length (p + 1)

namespace EarliestStep

variable {s s' : Schedule ω} {k p : Nat} {op : ω}

/-- Into a fresh slot, when the one at the cursor has refused the operation. -/
theorem fresh (hins : Insertion .earliest s k (Layout.skip k) [(k, op)] s' (max k (k + 1)))
    (hk : k ≤ s.length) (hrefused : s.fits k op = false)
    (hpush : ((s.openSlot k).padTo (k + 1)).pushAt k op = .ok s') :
    EarliestStep s k op (Layout.skip k) k s' where
  toInsertion := hins
  tail j hj := by
    obtain ⟨i, rfl⟩ : ∃ i, j = i + 1 := ⟨j - 1, by omega⟩
    have hi : k ≤ i := by omega
    refine ⟨i, hi, Layout.skip_of_le hi, ?_⟩
    rw [Schedule.getElem?_of_pushAt hpush (by omega), Schedule.getElem?_padTo (by omega),
      Schedule.getElem?_openSlot hi]
  keys i hi a _ _ := .inl hi
  before i hi a _ _ := by
    rw [Layout.skip_of_le hi]
    omega
  opens := by
    have hlt : k < s.length := by
      refine Nat.lt_of_not_le fun hle => ?_
      rw [Schedule.fits_of_length_le hle] at hrefused
      cases hrefused
    refine .inl ⟨rfl, rfl, hlt, ?_⟩
    rw [Schedule.length_of_pushAt hpush, Schedule.length_padTo, Schedule.length_openSlot hk]
    omega

/-- Into an old slot, or into one made at the end. -/
theorem join (hs : s.Sound) (hins : Insertion .earliest s k id [(p, op)] s' (max k (p + 1)))
    (hle : p ≤ k) (hfit : s.fits p op = true) (hpush : (s.padTo (p + 1)).pushAt p op = .ok s')
    (hkeys : ∀ i < k, ∀ a ∈ operationsAt s.slots i, SharesKey a op →
      i < p ∨ i = p ∧ p < k ∧ s.fits k op = false) :
    EarliestStep s k op id p s' where
  toInsertion := hins
  tail j hj := by
    refine ⟨j, by omega, rfl, ?_⟩
    rw [Schedule.getElem?_of_pushAt hpush (by omega), Schedule.getElem?_padTo (by omega)]
  keys := hkeys
  before i hi a ha hshare := by
    -- The slot that takes the operation is not the one of an operation on its resources.
    have hne : p ≠ i := by
      intro hpi
      subst hpi
      obtain ⟨r, hr, hra⟩ := hshare
      exact Schedule.untouched_of_fits hs hfit a ha ⟨r, hra, hr⟩
    show p < i
    omega
  opens := by
    refine .inr ⟨rfl, hle, ?_⟩
    rw [Schedule.length_of_pushAt hpush, Schedule.length_padTo]

end EarliestStep

namespace Schedule

/-- Crossing a slot is allowed only where no operation shares a key. -/
theorem not_sharesKey_of_canCross {s : Schedule ω} (hs : s.Sound) {op : ω} {i : Nat}
    (h : s.CanCross op i) : ∀ a ∈ operationsAt s.slots i, ¬SharesKey a op := by
  intro a ha hkey
  exact (canCross_iff hs).1 h a ha (.inr hkey)

/-- An operation that names no resource twice goes in by a step. -/
theorem exists_earliestStep {s : Schedule ω} (hs : s.Sound) {k : Nat} (hk : k ≤ s.length) {op : ω}
    (hnd : (resources op).Nodup) :
    ∃ moved p s', EarliestStep s k op moved p s' ∧
      ∀ items, s.insertItems k .earliest (.operation op :: items)
        = s'.insertItems (max k (p + 1)) .earliest items := by
  rcases pickSlot_earliest_cases hk op with
    ⟨p, hpick, hle, hfit, hcross⟩ | ⟨hrefused, hpick | ⟨p, hpk, hpick, hfit⟩⟩
  · have hfree : ∀ i, p ≤ i → i < k → s.Untouched op i := fun i hpi hi =>
      untouched_of_canCross hs (hcross i hpi hi)
    obtain ⟨s', hpush, hins⟩ :=
      Insertion.join .earliest hs hk hnd hle hfit hfree fun h => absurd rfl h
    refine ⟨id, p, s', .join hs hins hle hfit hpush fun i hi a ha hkey => .inl ?_,
      insertItems_of_pushAt hpick hpush⟩
    exact Nat.lt_of_not_le fun hpi => not_sharesKey_of_canCross hs (hcross i hpi hi) a ha hkey
  · obtain ⟨s', hpush, hins⟩ := Insertion.fresh .earliest hs hk hnd
    exact ⟨_, k, s', .fresh hins hk hrefused hpush, insertItems_of_pushAt hpick hpush⟩
  · have hfree : ∀ i, p ≤ i → i < k → s.Untouched op i := by
      intro i hpi hi
      rw [show i = p by omega]
      exact untouched_of_fits hs hfit
    obtain ⟨s', hpush, hins⟩ :=
      Insertion.join .earliest hs hk hnd (by omega) hfit hfree fun h => absurd rfl h
    refine ⟨id, p, s', .join hs hins (by omega) hfit hpush fun i hi a _ _ => ?_,
      insertItems_of_pushAt hpick hpush⟩
    rcases Nat.lt_or_ge i p with hip | hpi
    · exact .inl hip
    · exact .inr ⟨by omega, by omega, hrefused⟩

end Schedule

/-! ### One step after the other -/

/-- Operations go in one after the other, each by a step with the cursor where the one before has
left it. -/
inductive EarliestSteps : Schedule ω → Nat → (Nat → Nat) → List (Nat × ω) → Schedule ω → Nat → Prop
  | refl {s : Schedule ω} {k : Nat} (hs : s.Sound) (hk : k ≤ s.length) :
    EarliestSteps s k id [] s k
  | step {s mid s' : Schedule ω} {k p k' : Nat} {op : ω} {moved moved' : Nat → Nat}
    {landed : List (Nat × ω)} (first : EarliestStep s k op moved p mid)
    (rest : EarliestSteps mid (max k (p + 1)) moved' landed s' k') :
    EarliestSteps s k (moved' ∘ moved) ((p, op) :: landed) s' k'

theorem EarliestSteps.insertion {s s' : Schedule ω} {k k' : Nat} {moved : Nat → Nat}
    {landed : List (Nat × ω)} (h : EarliestSteps s k moved landed s' k') :
    Insertion .earliest s k moved landed s' k' := by
  induction h with
  | refl hs hk => exact Insertion.refl hs hk
  | step first _ ih => exact first.toInsertion.trans ih id

namespace Schedule

/-- Bare operations that pass their checks go in, each by a step of its own. -/
theorem exists_earliestSteps {items : List (Item ω)} {s : Schedule ω} (hs : s.Sound) {k : Nat}
    (hk : k ≤ s.length) (hbare : ∀ slot, Item.slot slot ∉ items)
    (hcheck : ∀ item ∈ items, checkItem item = .ok ()) :
    ∃ moved landed k', (s.insertItems k .earliest items).answer = .ok k' ∧
      landed.map Prod.snd = items.flatMap Item.operations ∧
      EarliestSteps s k moved landed (s.insertItems k .earliest items).left k' := by
  induction items generalizing s k with
  | nil => exact ⟨id, [], k, rfl, rfl, .refl hs hk⟩
  | cons item items ih =>
    rw [List.forall_mem_cons] at hcheck
    obtain ⟨hhead, hcheck⟩ := hcheck
    cases item with
    | slot slot => exact absurd List.mem_cons_self (hbare slot)
    | operation op =>
      have hnd : (resources op).Nodup := (checkOperation_eq_ok_iff.1 hhead).1
      obtain ⟨moved₁, p, mid, hstep, heq⟩ := exists_earliestStep hs hk hnd
      obtain ⟨moved, landed, k', hans, hops, hrest⟩ := ih hstep.sound hstep.cursor_le
        (fun slot hslot => hbare slot (List.mem_cons_of_mem _ hslot)) hcheck
      rw [heq items]
      refine ⟨_, _, k', hans, ?_, .step hstep hrest⟩
      rw [List.map_cons, hops, List.flatMap_cons]
      rfl

/-- Bare operations that have been inserted have gone in by such steps. -/
theorem earliestSteps_of_insert {s : Schedule ω} (hs : s.Sound) {bundle : Bundle ω}
    (hbare : ∀ slot, Item.slot slot ∉ bundle.items) {index next : Nat}
    (h : (s.insert index bundle .earliest).answer = .ok next) :
    ∃ moved landed, landed.map Prod.snd = bundle.operations ∧
      EarliestSteps s (min index s.length) moved landed (s.insert index bundle .earliest).left
        next := by
  rw [insert] at h ⊢
  split at h
  · cases h
  · rename_i hcheck
    obtain ⟨moved, landed, k', hans, hops, hsteps⟩ :=
      exists_earliestSteps hs (Nat.min_le_right _ _) hbare (checkItems_eq_ok_iff.1 hcheck)
    rw [hans] at h
    cases h
    exact ⟨moved, landed, hops, hsteps⟩

end Schedule

end Timetable
