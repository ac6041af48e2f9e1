import Timetable.Proofs.Schedule.Layout
import Timetable.Proofs.Slot.Conflict
import Timetable.Schedule.Insert
import Mathlib.Order.Bounds.Basic

/-!
# Insertion step by step

Insertion puts one leaf after another at a cursor. `Insertion` is what every step keeps: the record
of what has been put where, the slots before the cursor in their places, and each operation behind
the operations on its resources that stood before the cursor.

* `Schedule.isLeast_earliestSlot`: how far back an operation moves.
* `Schedule.pickSlot_cases`: an operation goes into a fresh slot at the cursor, or into an old slot
  that takes it and behind which nothing touches its resources.
* `Insertion.trans`, `Insertion.slot`, `Insertion.operation`: steps after each other, and the steps;
  `Insertion.fresh` and `Insertion.join` are the two ways in which an operation lands.
* `Schedule.exists_insertion`: insertion of sound leaves succeeds, and is such a sequence of steps.
* `Schedule.insertion_of_insert`, `Schedule.insert_answer_eq_error_iff`: the whole request.
-/

namespace Timetable

variable {ω : Type} [Operation ω]

namespace Schedule

def Sound (s : Schedule ω) : Prop := ∀ slot ∈ s.slots, slot.Sound

theorem Sound.set {s : Schedule ω} (hs : s.Sound) {slot : Slot ω} (hslot : slot.Sound) (i : Nat) :
    Sound { s with slots := s.slots.set i slot } := by
  intro t ht
  rcases List.mem_or_eq_of_mem_set ht with h | rfl
  · exact hs t h
  · exact hslot

end Schedule

def Item.Sound : Item ω → Prop
  | .operation _ => True
  | .slot s => s.Sound

def Bundle.Sound (b : Bundle ω) : Prop := ∀ item ∈ b.items, item.Sound

theorem Bundle.sound_operation (op : ω) : (Bundle.operation op).Sound := by
  intro item hitem
  rw [List.mem_singleton.1 hitem]
  trivial

theorem Bundle.sound_slot {s : Slot ω} (hs : s.Sound) : (Bundle.slot s).Sound := by
  intro item hitem
  rw [List.mem_singleton.1 hitem]
  exact hs

theorem Bundle.sound_sequence {parts : List (Bundle ω)} (h : ∀ part ∈ parts, part.Sound) :
    (Bundle.sequence parts).Sound := by
  intro item hitem
  rw [Bundle.items, Bundle.itemsOfParts_eq_flatMap] at hitem
  obtain ⟨part, hpart, hmem⟩ := List.mem_flatMap.1 hitem
  exact h part hpart item hmem

namespace Schedule

/-! ### Checks -/

theorem firstRepeated?_eq_none_iff {seen rs : List Resource} :
    firstRepeated? seen rs = none ↔ rs.Nodup ∧ ∀ r ∈ rs, r ∉ seen := by
  induction rs generalizing seen with
  | nil => simp [firstRepeated?]
  | cons r rs ih =>
    rw [firstRepeated?]
    by_cases h : r ∈ seen
    · simp [h]
    · rw [if_neg (by simpa using h), ih, List.nodup_cons, List.forall_mem_cons]
      constructor
      · intro h
        obtain ⟨hnd, hfree⟩ := h
        refine ⟨⟨fun hr => hfree r hr List.mem_cons_self, hnd⟩, h, fun j hj hmem => ?_⟩
        exact hfree j hj (List.mem_cons_of_mem _ hmem)
      · intro h
        obtain ⟨⟨hr, hnd⟩, -, hfree⟩ := h
        refine ⟨hnd, fun j hj hmem => ?_⟩
        rcases List.mem_cons.1 hmem with rfl | hmem
        · exact hr hj
        · exact hfree j hj hmem

theorem checkOperation_eq_ok_iff {op : ω} :
    checkOperation op = .ok () ↔ (resources op).Nodup ∧ nestsInItself op = false := by
  have hnone : firstRepeated? [] (resources op) = none ↔ _ := firstRepeated?_eq_none_iff
  rw [checkOperation]
  cases hf : firstRepeated? [] (resources op) with
  | some r =>
    have hnd : ¬(resources op).Nodup := by
      intro h
      rw [hnone.2 ⟨h, by simp⟩] at hf
      cases hf
    simp [hnd]
  | none =>
    have hnd : (resources op).Nodup := (hnone.1 hf).1
    cases nestsInItself op <;> simp [hnd]

theorem checkItems_eq_ok_iff {items : List (Item ω)} :
    checkItems items = .ok () ↔ ∀ item ∈ items, checkItem item = .ok () := by
  induction items with
  | nil => simp [checkItems]
  | cons item items ih =>
    rw [checkItems, List.forall_mem_cons, ← ih]
    cases checkItem item <;> simp [bind, Except.bind]

/-! ### Where an operation goes -/

/-- A sound slot holds an operation back exactly when one of its operations conflicts with it. -/
theorem holdsBack_iff {slot : Slot ω} (hs : slot.Sound) {op : ω} :
    holdsBack slot op = true ↔ ∃ a ∈ slot.operations, Conflict a op := by
  rw [holdsBack, Bool.or_eq_true, hs.touches_iff_sharesResource, Slot.orderedAgainst_footprint_iff]
  constructor
  · intro hx
    rcases hx with ⟨a, ha, h⟩ | ⟨a, ha, h⟩
    · exact ⟨a, ha, .inl h⟩
    · exact ⟨a, ha, .inr h⟩
  · intro hx
    rcases hx with ⟨a, ha, h | h⟩
    · exact .inl ⟨a, ha, h⟩
    · exact .inr ⟨a, ha, h⟩

/-- Whether moving back over the slot of the index is allowed. -/
def CanCross (s : Schedule ω) (op : ω) (i : Nat) : Prop :=
  ∀ slot, s.slots[i]? = some slot → holdsBack slot op = false

/-- Whether the operation, moving back from `k`, may end in the slot of index `q`. -/
def IsStop (s : Schedule ω) (op : ω) (k q : Nat) : Prop :=
  q < k ∧ s.fits q op = true ∧ ∀ i, q ≤ i → i < k → s.CanCross op i

theorem not_isStop_of_holdsBack {s : Schedule ω} {op : ω} {k q : Nat} {slot : Slot ω}
    (hslot : s.slots[k]? = some slot) (h : holdsBack slot op = true) :
    ¬s.IsStop op (k + 1) q := by
  intro hx
  obtain ⟨hq, -, hcross⟩ := hx
  have hfree := hcross k (Nat.le_of_lt_succ hq) (Nat.lt_succ_self k) slot hslot
  rw [hfree] at h
  cases h

theorem isStop_succ_iff {s : Schedule ω} {op : ω} {k q : Nat} (hk : s.CanCross op k) :
    s.IsStop op (k + 1) q ↔ q = k ∧ s.fits k op = true ∨ s.IsStop op k q := by
  constructor
  · intro h
    obtain ⟨hq, hfit, hcross⟩ := h
    rcases Nat.lt_succ_iff_lt_or_eq.1 hq with hq | rfl
    · exact .inr ⟨hq, hfit, fun i hqi hi => hcross i hqi (Nat.lt_succ_of_lt hi)⟩
    · exact .inl ⟨rfl, hfit⟩
  · intro h
    rcases h with ⟨rfl, hfit⟩ | ⟨hq, hfit, hcross⟩
    · refine ⟨Nat.lt_succ_self q, hfit, fun i hqi hi => ?_⟩
      rw [Nat.le_antisymm (Nat.le_of_lt_succ hi) hqi]
      exact hk
    · refine ⟨Nat.lt_succ_of_lt hq, hfit, fun i hqi hi => ?_⟩
      rcases Nat.lt_succ_iff_lt_or_eq.1 hi with hi | rfl
      · exact hcross i hqi hi
      · exact hk

/-- An operation moves back to the least slot in which it may end, or stays at `best`. -/
theorem isLeast_earliestSlot (s : Schedule ω) (op : ω) {k best : Nat} (hk : k ≤ s.length)
    (hb : k ≤ best) :
    IsLeast {q | q = best ∨ s.IsStop op k q} (s.earliestSlot op k best) := by
  induction k generalizing best with
  | zero =>
    rw [earliestSlot]
    refine ⟨.inl rfl, ?_⟩
    intro q h
    rcases h with rfl | ⟨hq, -⟩
    · exact Nat.le_refl _
    · exact absurd hq (Nat.not_lt_zero _)
  | succ k ih =>
    have hslot : s.slots[k]? = some s.slots[k] := List.getElem?_eq_getElem hk
    have hkle : k ≤ s.length := Nat.le_of_lt hk
    rw [earliestSlot, hslot]
    dsimp only
    by_cases hback : holdsBack s.slots[k] op = true
    · rw [if_pos hback]
      refine ⟨.inl rfl, ?_⟩
      intro q h
      rcases h with rfl | hq
      · exact Nat.le_refl _
      · exact absurd hq (not_isStop_of_holdsBack hslot hback)
    · rw [if_neg hback]
      have hcross : s.CanCross op k := by
        intro slot h
        rw [hslot] at h
        cases h
        simpa using hback
      simp only [isStop_succ_iff hcross]
      by_cases hfit : s.fits k op = true
      · -- The search goes on with `k` as the best slot so far, and `k` lies before `best`.
        rw [if_pos hfit]
        obtain ⟨hmem, hle⟩ := ih hkle (Nat.le_refl k)
        constructor
        · rcases hmem with h | h
          · exact .inr (.inl ⟨h, hfit⟩)
          · exact .inr (.inr h)
        · intro q h
          rcases h with rfl | ⟨rfl, -⟩ | hq
          · exact Nat.le_trans (hle (.inl rfl)) (Nat.le_of_succ_le hb)
          · exact hle (.inl rfl)
          · exact hle (.inr hq)
      · rw [if_neg hfit]
        obtain ⟨hmem, hle⟩ := ih hkle (Nat.le_of_succ_le hb)
        constructor
        · exact hmem.imp_right .inr
        · intro q hx
          rcases hx with rfl | ⟨-, h⟩ | hq
          · exact hle (.inl rfl)
          · exact absurd h hfit
          · exact hle (.inr hq)

/-- No operation of the slot of the index acts on a resource of the operation. -/
def Untouched (s : Schedule ω) (op : ω) (i : Nat) : Prop :=
  ∀ a ∈ operationsAt s.slots i, ¬SharesResource a op

theorem untouched_of_touches {s : Schedule ω} (hs : s.Sound) {op : ω} {i : Nat}
    (h : ∀ slot, s.slots[i]? = some slot → slot.touches (resources op) = false) :
    s.Untouched op i := by
  intro a ha hshare
  obtain ⟨slot, hslot, hmem⟩ := mem_operationsAt.1 ha
  have htouch :=
    (hs slot (List.mem_of_getElem? hslot)).touches_iff_sharesResource.2 ⟨a, hmem, hshare⟩
  rw [h slot hslot] at htouch
  cases htouch

theorem untouched_of_fits {s : Schedule ω} (hs : s.Sound) {op : ω} {i : Nat}
    (h : s.fits i op = true) : s.Untouched op i := by
  refine untouched_of_touches hs fun slot hslot => ?_
  rw [fits, hslot] at h
  simpa using (Bool.and_eq_true_iff.1 h).1

/-- Crossing a slot is allowed where the operation conflicts with nothing. -/
theorem canCross_iff {s : Schedule ω} (hs : s.Sound) {op : ω} {i : Nat} :
    s.CanCross op i ↔ ∀ a ∈ operationsAt s.slots i, ¬Conflict a op := by
  constructor
  · intro hcross a ha hconf
    obtain ⟨slot, hslot, hmem⟩ := mem_operationsAt.1 ha
    have hback := (holdsBack_iff (hs slot (List.mem_of_getElem? hslot))).2 ⟨a, hmem, hconf⟩
    rw [hcross slot hslot] at hback
    cases hback
  · intro hfree slot hslot
    rw [← Bool.not_eq_true, holdsBack_iff (hs slot (List.mem_of_getElem? hslot))]
    rintro ⟨a, ha, hconf⟩
    exact hfree a (mem_operationsAt.2 ⟨slot, hslot, ha⟩) hconf

theorem untouched_of_canCross {s : Schedule ω} (hs : s.Sound) {op : ω} {i : Nat}
    (h : s.CanCross op i) : s.Untouched op i := by
  intro a ha hshare
  exact (canCross_iff hs).1 h a ha (.inl hshare)

/-- Where an operation goes: into a fresh slot at the cursor, or into a slot that takes it, with
nothing on its resources from there to the cursor. Only `earliest` moves further back than to the
slot just before the cursor, or stays at the cursor. -/
theorem pickSlot_cases {s : Schedule ω} (hs : s.Sound) {k : Nat} (hk : k ≤ s.length) (op : ω)
    (strategy : Strategy) :
    s.pickSlot k op strategy = (k, s.openSlot k) ∨
      ∃ p, s.pickSlot k op strategy = (p, s) ∧ p ≤ k ∧ s.fits p op = true ∧
        (∀ i, p ≤ i → i < k → s.Untouched op i) ∧ (strategy ≠ .earliest → p + 1 = k) := by
  have inline : s.inlineSlot k op = (k, s.openSlot k) ∨
      ∃ p, s.inlineSlot k op = (p, s) ∧ p ≤ k ∧ s.fits p op = true ∧
        (∀ i, p ≤ i → i < k → s.Untouched op i) ∧ p + 1 = k := by
    rw [inlineSlot]
    split
    · rename_i h
      simp only [Bool.and_eq_true, decide_eq_true_eq] at h
      obtain ⟨⟨hpos, -⟩, hfit⟩ := h
      refine .inr ⟨k - 1, rfl, Nat.sub_le k 1, hfit, fun i hpi hi => ?_, by omega⟩
      rw [show i = k - 1 by omega]
      exact untouched_of_fits hs hfit
    · exact .inl rfl
  cases strategy with
  | new => exact .inl rfl
  | newThenInline => exact .inl rfl
  | inline =>
    refine inline.imp_right ?_
    intro h
    obtain ⟨p, hp, hle, hfit, hfree, hpk⟩ := h
    exact ⟨p, hp, hle, hfit, hfree, fun _ => hpk⟩
  | earliest =>
    rw [pickSlot]
    split
    · rename_i hfit
      refine .inr ⟨_, rfl, ?_⟩
      rcases (s.isLeast_earliestSlot op hk (Nat.le_refl k)).1 with h | ⟨hlt, hpfit, hcross⟩
      · rw [h]
        exact ⟨Nat.le_refl k, hfit, fun i hki hi => absurd hi (by omega), fun h => absurd rfl h⟩
      · exact ⟨Nat.le_of_lt hlt, hpfit, fun i hpi hi => untouched_of_canCross hs (hcross i hpi hi),
          fun h => absurd rfl h⟩
    · refine inline.imp_right ?_
      intro h
      obtain ⟨p, hp, hle, hfit, hfree, -⟩ := h
      exact ⟨p, hp, hle, hfit, hfree, fun h => absurd rfl h⟩

/-- An operation that names no resource twice joins a sound slot that nothing on its resources
shares. -/
theorem exists_pushAt {s : Schedule ω} (hs : s.Sound) {p : Nat} {op : ω} (hp : p < s.length)
    (hnd : (resources op).Nodup) (hfree : s.Untouched op p) :
    ∃ s', s.pushAt p op = .ok s' ∧ s'.acceptance = s.acceptance ∧ s'.length = s.length ∧ s'.Sound ∧
      Layout s.slots id [(p, op)] s'.slots := by
  have hslot : s.slots[p]? = some s.slots[p] := List.getElem?_eq_getElem hp
  have hsound : s.slots[p].Sound := hs _ (List.getElem_mem hp)
  have hjoin : ((s.slots[p].operations ++ [op]).flatMap resources).Nodup := by
    rw [List.flatMap_append, List.flatMap_singleton, List.nodup_append]
    refine ⟨hsound.usesOnce, hnd, ?_⟩
    intro r hr _ hro heq
    subst heq
    obtain ⟨a, ha, hra⟩ := List.mem_flatMap.1 hr
    exact hfree a (mem_operationsAt.2 ⟨_, hslot, ha⟩) ⟨r, hra, hro⟩
  obtain ⟨slot', hpush⟩ := hsound.push_eq_ok_iff.2 hjoin
  refine ⟨{ s with slots := s.slots.set p slot' }, ?_, rfl, List.length_set, ?_, ?_⟩
  · rw [pushAt, hslot]
    dsimp only
    rw [hpush]
    rfl
  · exact hs.set (hsound.push hpush) p
  · exact Layout.set hslot (Slot.operations_of_push hpush)

omit [Operation ω] in
theorem layout_padTo (s : Schedule ω) (n : Nat) : Layout s.slots id [] (s.padTo n).slots :=
  Layout.pad s.slots _

omit [Operation ω] in
theorem length_padTo (s : Schedule ω) (n : Nat) : (s.padTo n).length = max s.length n := by
  rw [length, padTo, List.length_append, List.length_replicate, length]
  omega

theorem Sound.padTo {s : Schedule ω} (hs : s.Sound) (n : Nat) : (s.padTo n).Sound := by
  intro slot hmem
  rcases List.mem_append.1 hmem with h | h
  · exact hs slot h
  · rw [List.eq_of_mem_replicate h]
    exact Slot.sound_empty

theorem Untouched.padTo {s : Schedule ω} {op : ω} {i : Nat} (h : s.Untouched op i) (n : Nat) :
    (s.padTo n).Untouched op i := by
  intro a ha
  rw [(s.layout_padTo n).content_of_id, landedIn_nil, List.append_nil] at ha
  exact h a ha

/-- Where nothing shares its resources, an operation lands, in a slot made for it if need be. -/
theorem exists_landing {s : Schedule ω} (hs : s.Sound) {p : Nat} {op : ω}
    (hnd : (resources op).Nodup) (hfree : s.Untouched op p) :
    ∃ s', (s.padTo (p + 1)).pushAt p op = .ok s' ∧ s'.acceptance = s.acceptance ∧
      s'.length = max s.length (p + 1) ∧ s'.Sound ∧ Layout s.slots id [(p, op)] s'.slots := by
  have hlen : (s.padTo (p + 1)).length = max s.length (p + 1) := s.length_padTo (p + 1)
  obtain ⟨s', hpush, hrule, hlen', hsound', hlayout⟩ :=
    exists_pushAt (hs.padTo (p + 1)) (by omega) hnd (hfree.padTo (p + 1))
  exact ⟨s', hpush, hrule, hlen'.trans hlen, hsound', (s.layout_padTo (p + 1)).trans hlayout⟩

/-- An operation is put into the slot that the strategy picks, and the other leaves follow. -/
theorem insertItems_of_pushAt {s picked s' : Schedule ω} {k p : Nat} {op : ω} {strategy : Strategy}
    (hpick : s.pickSlot k op strategy = (p, picked))
    (hpush : (picked.padTo (p + 1)).pushAt p op = .ok s') (items : List (Item ω)) :
    s.insertItems k strategy (.operation op :: items)
      = s'.insertItems (max k (p + 1)) strategy.afterOperation items := by
  rw [insertItems, hpick]
  dsimp only
  rw [hpush]

end Schedule

/-! ### Steps of insertion -/

/-- Insertion under a strategy takes the schedule `s` with the cursor at `k` to the schedule `s'`
with the cursor at `k'`, by moving old slots as `moved` says and adding the operations of
`landed`. -/
structure Insertion (strategy : Strategy) (s : Schedule ω) (k : Nat) (moved : Nat → Nat)
    (landed : List (Nat × ω)) (s' : Schedule ω) (k' : Nat) : Prop where
  layout : Layout s.slots moved landed s'.slots
  sound : s'.Sound
  acceptance : s'.acceptance = s.acceptance
  le_cursor : k ≤ k'
  cursor_le : k' ≤ s'.length
  /-- Slots before the cursor stay in their places. -/
  fixed : ∀ i < k, moved i = i
  /-- Operations land before the new cursor. -/
  landed_lt : ∀ e ∈ landed, e.1 < k'
  /-- Of two operations on one resource the second lands in a later slot. -/
  ordered : landed.Pairwise fun a b => SharesResource a.2 b.2 → a.1 < b.1
  /-- Operations land behind those on their resources before the cursor. -/
  behind : ∀ e ∈ landed, ∀ i < k, ∀ op ∈ operationsAt s.slots i, SharesResource op e.2 → i < e.1
  /-- Except where operations land as early as they can, slots at the cursor or later are moved
  behind everything that has landed. -/
  ahead : strategy ≠ .earliest → ∀ i, k ≤ i → k' ≤ moved i

namespace Insertion

variable {strategy strategy' : Strategy} {s mid s' : Schedule ω} {k kmid k' : Nat}
variable {moved moved' : Nat → Nat} {landed landed' : List (Nat × ω)}

theorem refl (hs : s.Sound) (hk : k ≤ s.length) : Insertion strategy s k id [] s k where
  layout := Layout.refl s.slots
  sound := hs
  acceptance := rfl
  le_cursor := Nat.le_refl k
  cursor_le := hk
  fixed _ _ := rfl
  landed_lt := by simp
  ordered := List.Pairwise.nil
  behind := by simp
  ahead _ _ h := h

/-- When operations land as early as they can, the cursor may be moved on. -/
theorem advance (h : Insertion .earliest s k moved landed s' k') {k'' : Nat} (hle : k' ≤ k'')
    (hlen : k'' ≤ s'.length) : Insertion .earliest s k moved landed s' k'' where
  layout := h.layout
  sound := h.sound
  acceptance := h.acceptance
  le_cursor := Nat.le_trans h.le_cursor hle
  cursor_le := hlen
  fixed := h.fixed
  landed_lt e he := Nat.lt_of_lt_of_le (h.landed_lt e he) hle
  ordered := h.ordered
  behind := h.behind
  ahead hne := absurd rfl hne

/-- Steps after each other. What has landed is before the cursor, so later steps do not move it. -/
theorem trans (h : Insertion strategy s k moved landed mid kmid)
    (h' : Insertion strategy' mid kmid moved' landed' s' k')
    (hstrategy : strategy ≠ .earliest → strategy' ≠ .earliest) :
    Insertion strategy s k (moved' ∘ moved) (landed ++ landed') s' k' where
  layout := by
    have hstay : relocate moved' landed = landed :=
      relocate_of_fixed fun e he => h'.fixed e.1 (h.landed_lt e he)
    have hlayout := h.layout.trans h'.layout
    rwa [hstay] at hlayout
  sound := h'.sound
  acceptance := h'.acceptance.trans h.acceptance
  le_cursor := Nat.le_trans h.le_cursor h'.le_cursor
  cursor_le := h'.cursor_le
  fixed i hi := by
    show moved' (moved i) = i
    rw [h.fixed i hi, h'.fixed i (Nat.lt_of_lt_of_le hi h.le_cursor)]
  landed_lt e he := by
    rcases List.mem_append.1 he with he | he
    · exact Nat.lt_of_lt_of_le (h.landed_lt e he) h'.le_cursor
    · exact h'.landed_lt e he
  ordered := by
    refine List.pairwise_append.2 ⟨h.ordered, h'.ordered, fun a ha b hb hshare => ?_⟩
    exact h'.behind b hb a.1 (h.landed_lt a ha) a.2 (h.layout.mem_of_landed ha) hshare
  behind e he i hi op hop hshare := by
    rcases List.mem_append.1 he with he | he
    · exact h.behind e he i hi op hop hshare
    · have hop' := h.layout.mem_of_moved hop
      rw [h.fixed i hi] at hop'
      exact h'.behind e he i (Nat.lt_of_lt_of_le hi h.le_cursor) op hop' hshare
  ahead hne i hi := h'.ahead (hstrategy hne) _ (h.ahead hne i hi)

/-- A finished slot goes in at the cursor. -/
theorem slot (strategy : Strategy) (hs : s.Sound) (hk : k ≤ s.length) {slot : Slot ω}
    (hslot : slot.Sound) :
    Insertion strategy s k (Layout.skip k) (slot.operations.map fun op => (k, op))
      { s with slots := s.slots.insertIdx k slot } (k + 1) where
  layout := Layout.insertIdx hk slot
  sound := by
    intro t ht
    rcases (List.mem_insertIdx hk).1 ht with rfl | h
    · exact hslot
    · exact hs t h
  acceptance := rfl
  le_cursor := Nat.le_succ k
  cursor_le := by
    show k + 1 ≤ (s.slots.insertIdx k slot).length
    rw [List.length_insertIdx_of_le_length hk]
    exact Nat.succ_le_succ hk
  fixed _ hi := Layout.skip_of_lt hi
  landed_lt := by simp
  ordered := by
    refine List.pairwise_map.2 (hslot.pairwise_not_shares.imp ?_)
    exact fun hnot hshare => absurd hshare hnot
  behind := by
    intro e he i hi op _ _
    obtain ⟨a, -, rfl⟩ := List.mem_map.1 he
    exact hi
  ahead _ i hi := by rw [Layout.skip_of_le hi]; exact Nat.succ_le_succ hi

/-- An operation lands in a fresh slot at the cursor: nothing is in it, and later slots move one place
on. -/
theorem fresh (strategy : Strategy) (hs : s.Sound) (hk : k ≤ s.length) {op : ω}
    (hnd : (resources op).Nodup) :
    ∃ s', ((s.openSlot k).padTo (k + 1)).pushAt k op = .ok s' ∧
      Insertion strategy s k (Layout.skip k) [(k, op)] s' (max k (k + 1)) := by
  have hopen : Layout s.slots (Layout.skip k) [] (s.openSlot k).slots :=
    Layout.insertIdx hk Slot.empty
  have hsound : (s.openSlot k).Sound := (slot strategy hs hk Slot.sound_empty).sound
  have hfree : (s.openSlot k).Untouched op k := by
    intro a ha
    have hfresh := hopen.content_fresh k fun i _ => by rw [Layout.skip]; split <;> omega
    rw [hfresh] at ha
    cases ha
  obtain ⟨s', hpush, hrule, hlen, hsound', hlayout⟩ := Schedule.exists_landing hsound hnd hfree
  refine ⟨s', hpush, hopen.trans hlayout, hsound', hrule, by omega, by omega, ?_, ?_, ?_, ?_, ?_⟩
  · exact fun i hi => Layout.skip_of_lt hi
  · simp
  · exact List.pairwise_singleton _ _
  · intro e he i hi _ _ _
    rw [List.mem_singleton.1 he]
    exact hi
  · intro _ i hi
    show max k (k + 1) ≤ Layout.skip k i
    rw [Layout.skip_of_le hi]
    omega

/-- An operation lands in a slot that takes it, with nothing on its resources from there to the
cursor. -/
theorem join (strategy : Strategy) (hs : s.Sound) (hk : k ≤ s.length) {op : ω}
    (hnd : (resources op).Nodup) {p : Nat} (hle : p ≤ k) (hfit : s.fits p op = true)
    (hfree : ∀ i, p ≤ i → i < k → s.Untouched op i) (hlast : strategy ≠ .earliest → p + 1 = k) :
    ∃ s', (s.padTo (p + 1)).pushAt p op = .ok s' ∧
      Insertion strategy s k id [(p, op)] s' (max k (p + 1)) := by
  obtain ⟨s', hpush, hrule, hlen, hsound', hlayout⟩ :=
    Schedule.exists_landing hs hnd (Schedule.untouched_of_fits hs hfit)
  refine ⟨s', hpush, hlayout, hsound', hrule, by omega, by omega, fun i _ => rfl, ?_, ?_, ?_, ?_⟩
  · simp
  · exact List.pairwise_singleton _ _
  · intro e he i hi a ha hshare
    rw [List.mem_singleton.1 he] at hshare ⊢
    exact Nat.lt_of_not_le fun hpi => hfree i hpi hi a ha hshare
  · intro hne i hi
    have := hlast hne
    show max k (p + 1) ≤ i
    omega

/-- An operation lands where the strategy puts it. -/
theorem operation (hs : s.Sound) (hk : k ≤ s.length) {op : ω} (hnd : (resources op).Nodup)
    (strategy : Strategy) :
    ∃ moved p s', Insertion strategy s k moved [(p, op)] s' (max k (p + 1)) ∧
      ∀ items, s.insertItems k strategy (.operation op :: items)
        = s'.insertItems (max k (p + 1)) strategy.afterOperation items := by
  rcases Schedule.pickSlot_cases hs hk op strategy with hpick | ⟨p, hpick, hle, hfit, hfree, hlast⟩
  · obtain ⟨s', hpush, hins⟩ := fresh strategy hs hk hnd
    exact ⟨_, k, s', hins, Schedule.insertItems_of_pushAt hpick hpush⟩
  · obtain ⟨s', hpush, hins⟩ := join strategy hs hk hnd hle hfit hfree hlast
    exact ⟨_, p, s', hins, Schedule.insertItems_of_pushAt hpick hpush⟩

end Insertion

theorem Strategy.afterOperation_ne_earliest {strategy : Strategy} (h : strategy ≠ .earliest) :
    strategy.afterOperation ≠ .earliest := by
  cases strategy <;> simp_all [Strategy.afterOperation]

namespace Schedule

/-- Sound leaves that pass their checks go in, each by a step of its own. -/
theorem exists_insertion {items : List (Item ω)} {s : Schedule ω} (hs : s.Sound) {k : Nat}
    (hk : k ≤ s.length) (strategy : Strategy) (hitems : ∀ item ∈ items, item.Sound)
    (hcheck : ∀ item ∈ items, checkItem item = .ok ()) :
    ∃ moved landed k', (s.insertItems k strategy items).answer = .ok k' ∧
      landed.map Prod.snd = items.flatMap Item.operations ∧
      Insertion strategy s k moved landed (s.insertItems k strategy items).left k' := by
  induction items generalizing s k strategy with
  | nil => exact ⟨id, [], k, rfl, rfl, Insertion.refl hs hk⟩
  | cons item items ih =>
    rw [List.forall_mem_cons] at hitems hcheck
    obtain ⟨hitem, hitems⟩ := hitems
    obtain ⟨hhead, hcheck⟩ := hcheck
    cases item with
    | slot slot =>
      have hstep := Insertion.slot strategy hs hk hitem
      obtain ⟨moved, landed, k', hans, hops, hrest⟩ :=
        ih hstep.sound hstep.cursor_le strategy hitems hcheck
      refine ⟨_, _, k', hans, ?_, hstep.trans hrest id⟩
      rw [List.map_append, hops, List.flatMap_cons, List.map_map]
      simp [Function.comp_def, Item.operations]
    | operation op =>
      have hnd : (resources op).Nodup := (checkOperation_eq_ok_iff.1 hhead).1
      obtain ⟨moved₁, p, mid, hstep, heq⟩ := Insertion.operation hs hk hnd strategy
      obtain ⟨moved, landed, k', hans, hops, hrest⟩ :=
        ih hstep.sound hstep.cursor_le strategy.afterOperation hitems hcheck
      rw [heq items]
      refine ⟨_, _, k', hans, ?_, hstep.trans hrest Strategy.afterOperation_ne_earliest⟩
      rw [List.map_append, hops, List.flatMap_cons]
      rfl

/-- Sound bundles that pass their check go in. -/
theorem exists_insert {s : Schedule ω} (hs : s.Sound) {bundle : Bundle ω} (hb : bundle.Sound)
    (hcheck : checkItems bundle.items = .ok ()) (index : Nat) (strategy : Strategy) :
    ∃ moved landed next, (s.insert index bundle strategy).answer = .ok next ∧
      landed.map Prod.snd = bundle.operations ∧
      Insertion strategy s (min index s.length) moved landed
        (s.insert index bundle strategy).left next := by
  rw [insert, hcheck]
  exact exists_insertion hs (Nat.min_le_right _ _) strategy hb (checkItems_eq_ok_iff.1 hcheck)

/-- An insertion that succeeds is a sequence of steps. -/
theorem insertion_of_insert {s : Schedule ω} (hs : s.Sound) {bundle : Bundle ω} (hb : bundle.Sound)
    {index next : Nat} {strategy : Strategy}
    (h : (s.insert index bundle strategy).answer = .ok next) :
    ∃ moved landed, landed.map Prod.snd = bundle.operations ∧
      Insertion strategy s (min index s.length) moved landed
        (s.insert index bundle strategy).left next := by
  cases hcheck : checkItems bundle.items with
  | error e =>
    rw [insert, hcheck] at h
    cases h
  | ok _ =>
    obtain ⟨moved, landed, next', hans, hops, hins⟩ := exists_insert hs hb hcheck index strategy
    rw [h] at hans
    cases hans
    exact ⟨moved, landed, hops, hins⟩

/-- Only its check can make an insertion fail. -/
theorem insert_answer_eq_error_iff {s : Schedule ω} (hs : s.Sound) {bundle : Bundle ω}
    (hb : bundle.Sound) {index : Nat} {strategy : Strategy} {e : Fault} :
    (s.insert index bundle strategy).answer = .error e ↔ checkItems bundle.items = .error e := by
  cases hcheck : checkItems bundle.items with
  | error f => simp [insert, hcheck]
  | ok _ =>
    obtain ⟨-, -, next, hans, -⟩ := exists_insert hs hb hcheck index strategy
    simp [hans]

end Schedule

end Timetable
