import Timetable.Proofs.Schedule.EarliestStep
import Timetable.Proofs.Slot.Parts
import Timetable.Schedule.RangeInsert

/-!
# First fit

Operations that are written into a range go in one after the other. Each goes into the first slot
that takes it, from the slot of the operation before it on. What a slot takes depends on the
operations that have gone in so far, and these are known from the record: the schedule after some of
the writing is the schedule before it with the recorded operations added.

* `TakesAfter`: a slot takes an operation after those of a record.
* `PlacedByFirstFit`: every operation of a record is in the first slot that takes it.
* `Filling`: a schedule in which the operations of a record have been written into a range.
* `Filling.push`, `Schedule.exists_filling`: one operation more, and all that find room.
-/

namespace Timetable

variable {ω : Type} [Operation ω]

/-! ### What slots take -/

/-- The operations in the slot of the index after those of the record have been added. -/
def heldAfter (s : Schedule ω) (placed : List (Nat × ω)) (j : Nat) : List ω :=
  operationsAt s.slots j ++ landedIn placed j

/-- The slot of the index takes the operation after those of the record: nothing in it acts on its
resources, and the acceptance rule, if there is one, lets it join. -/
structure TakesAfter (s : Schedule ω) (placed : List (Nat × ω)) (j : Nat) (op : ω) : Prop where
  free : ∀ a ∈ heldAfter s placed j, ¬SharesResource a op
  accepted : s.accepts op (Slot.ofApart (heldAfter s placed j)) = true

/-- The slot of the last operation of the record, or `start` where there is none. -/
def cursorAfter (start : Nat) (placed : List (Nat × ω)) : Nat :=
  (placed.getLast?.map Prod.fst).getD start

/-- Every operation of the record is in the first slot that takes it after those before it, from the
slot of the operation before it on and before `stop`. -/
def PlacedByFirstFit (s : Schedule ω) (start stop : Nat) (placed : List (Nat × ω)) : Prop :=
  ∀ earlier e later, placed = earlier ++ e :: later →
    IsLeast {j | cursorAfter start earlier ≤ j ∧ j < stop ∧ TakesAfter s earlier j e.2} e.1

/-- After the operations of the record no slot of the range is left that takes the operation. -/
def FindsNoSlot (s : Schedule ω) (start stop : Nat) (placed : List (Nat × ω)) (op : ω) : Prop :=
  ∀ j, cursorAfter start placed ≤ j → j < stop → ¬TakesAfter s placed j op

omit [Operation ω] in
@[simp]
theorem cursorAfter_nil (start : Nat) : cursorAfter start ([] : List (Nat × ω)) = start := rfl

omit [Operation ω] in
@[simp]
theorem cursorAfter_concat (start : Nat) (placed : List (Nat × ω)) (e : Nat × ω) :
    cursorAfter start (placed ++ [e]) = e.1 := by
  rw [cursorAfter, List.getLast?_concat]
  rfl

theorem placedByFirstFit_nil (s : Schedule ω) (start stop : Nat) :
    PlacedByFirstFit s start stop [] := by
  intro earlier e later h
  simp at h

theorem PlacedByFirstFit.concat {s : Schedule ω} {start stop : Nat} {placed : List (Nat × ω)}
    (h : PlacedByFirstFit s start stop placed) {e : Nat × ω}
    (he : IsLeast {j | cursorAfter start placed ≤ j ∧ j < stop ∧ TakesAfter s placed j e.2} e.1) :
    PlacedByFirstFit s start stop (placed ++ [e]) := by
  intro earlier d later hsplit
  rcases split_concat hsplit with ⟨rfl, rfl⟩ | ⟨rest, hrest⟩
  · exact he
  · exact h earlier d rest hrest

namespace Schedule

theorem firstFit?_eq_some {s : Schedule ω} {op : ω} {i stop j : Nat}
    (h : s.firstFit? op i stop = some j) : i ≤ j ∧ j < stop ∧ s.fits j op = true := by
  have hmem := List.mem_of_find?_eq_some h
  rw [List.mem_range'_1] at hmem
  exact ⟨hmem.1, by omega, List.find?_some (p := fun j => s.fits j op) h⟩

/-- The slot that is found is the first one that takes the operation. -/
theorem isLeast_firstFit? {s : Schedule ω} {op : ω} {i stop j : Nat}
    (h : s.firstFit? op i stop = some j) :
    IsLeast {j | i ≤ j ∧ j < stop ∧ s.fits j op = true} j := by
  refine ⟨firstFit?_eq_some h, fun k hk => Nat.le_of_not_lt fun hkj => ?_⟩
  obtain ⟨-, -, hbefore⟩ := List.find?_range'_eq_some.1 h
  have hrefused := hbefore k hk.1 hkj
  rw [hk.2.2] at hrefused
  cases hrefused

/-- Where none is found, none takes the operation. -/
theorem fits_of_firstFit?_eq_none {s : Schedule ω} {op : ω} {i stop : Nat}
    (h : s.firstFit? op i stop = none) {j : Nat} (hij : i ≤ j) (hj : j < stop) :
    s.fits j op = false := by
  have hrefused := List.find?_range'_eq_none.1 h j hij (by omega)
  simpa using hrefused

end Schedule

/-! ### Writing into a range -/

/-- The schedule `s'` is the schedule `s` after the operations of `placed` have been written, by first
fit, into the slots from `start` up to but without `stop`. -/
structure Filling (s : Schedule ω) (start stop : Nat) (placed : List (Nat × ω)) (s' : Schedule ω) :
    Prop where
  layout : Layout s.slots id placed s'.slots
  sound : s'.Sound
  acceptance : s'.acceptance = s.acceptance
  length_eq : s'.length = s.length
  firstFit : PlacedByFirstFit s start stop placed
  start_le : start ≤ cursorAfter start placed
  within : ∀ e ∈ placed, start ≤ e.1 ∧ e.1 ≤ cursorAfter start placed ∧ e.1 < stop
  /-- Of two operations on one resource the second one is in a later slot. -/
  ordered : placed.Pairwise fun a b => SharesResource a.2 b.2 → a.1 < b.1
  /-- The slots beside the range are as they were. -/
  beside : ∀ i, i < start ∨ stop ≤ i → s'.slots[i]? = s.slots[i]?

namespace Filling

variable {s mid s' : Schedule ω} {start stop : Nat} {placed : List (Nat × ω)}

theorem refl (hs : s.Sound) (start stop : Nat) : Filling s start stop [] s where
  layout := Layout.refl s.slots
  sound := hs
  acceptance := rfl
  length_eq := rfl
  firstFit := placedByFirstFit_nil s start stop
  start_le := Nat.le_refl start
  within := by simp
  ordered := List.Pairwise.nil
  beside _ _ := rfl

theorem operationsAt_eq (h : Filling s start stop placed mid) (j : Nat) :
    operationsAt mid.slots j = heldAfter s placed j := h.layout.content_of_id j

/-- What the slots of the partly filled schedule take is known from the record. -/
theorem fits_iff (h : Filling s start stop placed mid) {j : Nat} (hj : j < s.length) {op : ω} :
    mid.fits j op = true ↔ TakesAfter s placed j op := by
  have hlen : j < mid.slots.length := Nat.lt_of_lt_of_eq hj h.length_eq.symm
  have hslot : mid.slots[j]? = some mid.slots[j] := List.getElem?_eq_getElem hlen
  have hsound : mid.slots[j].Sound := h.sound _ (List.getElem_mem hlen)
  have hops : mid.slots[j].operations = heldAfter s placed j := by
    rw [← h.operationsAt_eq, operationsAt_of_getElem? hslot]
  have hwhole : mid.slots[j] = Slot.ofApart (heldAfter s placed j) := by
    rw [← hops]
    exact hsound.eq_ofApart
  have hrule : mid.accepts op mid.slots[j] = s.accepts op (Slot.ofApart (heldAfter s placed j)) := by
    rw [hwhole, Schedule.accepts, Schedule.accepts, h.acceptance]
  rw [Schedule.fits, hslot]
  dsimp only
  rw [hrule, Bool.and_eq_true, Bool.not_eq_true', ← Bool.not_eq_true,
    hsound.touches_iff_sharesResource, hops]
  constructor
  · rintro ⟨hfree, haccepts⟩
    exact ⟨fun a ha hshare => hfree ⟨a, ha, hshare⟩, haccepts⟩
  · rintro ⟨hfree, haccepts⟩
    refine ⟨?_, haccepts⟩
    rintro ⟨a, ha, hshare⟩
    exact hfree a ha hshare

/-- An operation goes into the first slot that takes it, and the cursor moves on to that slot. -/
theorem push (h : Filling s start stop placed mid) (hstop : stop ≤ s.length) {op : ω} {j : Nat}
    (hfit : mid.firstFit? op (cursorAfter start placed) stop = some j)
    (hnd : (resources op).Nodup) :
    ∃ s', mid.pushAt j op = .ok s' ∧ Filling s start stop (placed ++ [(j, op)]) s' := by
  obtain ⟨⟨hle, hlt, hfits⟩, hleast⟩ := Schedule.isLeast_firstFit? hfit
  have htakes : ∀ i < stop, mid.fits i op = true ↔ TakesAfter s placed i op := fun i hi =>
    h.fits_iff (Nat.lt_of_lt_of_le hi hstop)
  have hfree := Schedule.untouched_of_fits h.sound hfits
  have hlen : j < mid.length := Nat.lt_of_lt_of_eq (Nat.lt_of_lt_of_le hlt hstop) h.length_eq.symm
  obtain ⟨s', hpush, hrule, hlength, hsound, hlayout⟩ :=
    Schedule.exists_pushAt h.sound hlen hnd hfree
  have hcursor : cursorAfter start (placed ++ [(j, op)]) = j := cursorAfter_concat start placed _
  refine ⟨s', hpush, ?_, hsound, hrule.trans h.acceptance, hlength.trans h.length_eq, ?_, ?_, ?_, ?_,
    fun i hi => ?_⟩
  · have hboth := h.layout.trans hlayout
    rwa [relocate_of_fixed fun _ _ => rfl] at hboth
  · refine h.firstFit.concat ⟨⟨hle, hlt, (htakes j hlt).1 hfits⟩, fun i hi => ?_⟩
    exact hleast ⟨hi.1, hi.2.1, (htakes i hi.2.1).2 hi.2.2⟩
  · rw [hcursor]
    exact Nat.le_trans h.start_le hle
  · rw [hcursor]
    intro e he
    rcases List.mem_append.1 he with he | he
    · obtain ⟨hstart, hcur, hbefore⟩ := h.within e he
      exact ⟨hstart, Nat.le_trans hcur hle, hbefore⟩
    · rw [List.mem_singleton.1 he]
      exact ⟨Nat.le_trans h.start_le hle, Nat.le_refl j, hlt⟩
  · refine List.pairwise_append.2 ⟨h.ordered, List.pairwise_singleton _ _, fun a ha b hb hshare => ?_⟩
    rw [List.mem_singleton.1 hb] at hshare ⊢
    -- The operation is not in the slot of one on its resources, and the cursor is not behind it.
    have hne : a.1 ≠ j := by
      intro heq
      exact hfree a.2 (heq ▸ h.layout.mem_of_landed ha) hshare
    exact Nat.lt_of_le_of_ne (Nat.le_trans (h.within a ha).2.1 hle) hne
  · have hne : j ≠ i := by
      have := h.start_le
      omega
    exact (Schedule.getElem?_of_pushAt hpush hne).trans (h.beside i hi)

end Filling

/-- Writing goes on until an operation finds no slot; no operation fails to go in. -/
theorem Schedule.exists_filling {ops : List ω} (hnd : ∀ op ∈ ops, (resources op).Nodup)
    {s mid : Schedule ω} {start stop : Nat} (hstop : stop ≤ s.length) {placed : List (Nat × ω)}
    (h : Filling s start stop placed mid) :
    ∃ filled rest, (mid.fillRange (cursorAfter start placed) stop ops).answer = .ok rest ∧
      filled.map Prod.snd ++ rest = ops ∧
      Filling s start stop (placed ++ filled)
        (mid.fillRange (cursorAfter start placed) stop ops).left ∧
      ∀ op ∈ rest.head?, FindsNoSlot s start stop (placed ++ filled) op := by
  induction ops generalizing mid placed with
  | nil => exact ⟨[], [], rfl, rfl, (List.append_nil placed).symm ▸ h, by simp⟩
  | cons op ops ih =>
    obtain ⟨hop, hnd⟩ := List.forall_mem_cons.1 hnd
    rw [fillRange]
    cases hfit : mid.firstFit? op (cursorAfter start placed) stop with
    | none =>
      refine ⟨[], op :: ops, rfl, rfl, (List.append_nil placed).symm ▸ h, ?_⟩
      rintro _ ⟨⟩ j hcursor hj htakes
      rw [List.append_nil] at hcursor htakes
      have hfits := (h.fits_iff (Nat.lt_of_lt_of_le hj hstop)).2 htakes
      rw [fits_of_firstFit?_eq_none hfit hcursor hj] at hfits
      cases hfits
    | some j =>
      obtain ⟨mid', hpush, hfilling⟩ := h.push hstop hfit hop
      obtain ⟨filled, rest, hans, hops, hrest, hnone⟩ := ih hnd hfilling
      rw [cursorAfter_concat] at hans hrest
      rw [List.append_assoc] at hrest hnone
      dsimp only
      rw [hpush]
      exact ⟨(j, op) :: filled, rest, hans, congrArg (op :: ·) hops, hrest, hnone⟩

end Timetable
