import Timetable.Proofs.Schedule.EarliestStep
import Timetable.Proofs.Slot.Parts
import Timetable.Instruction

/-!
# Where a single operation lands

An operation that can be placed at an index goes, as early as it can, into the least slot that it
reaches from there. On the way back it passes every slot in which nothing conflicts with it, also
one that the acceptance rule keeps it out of, and it ends in a slot that the rule lets it join. The
rule is any rule. No other slot is changed, and none is opened, except at the end.

* `HasRoom`: an operation can be placed at an index.
* `MayEnd`: an operation that moves back from an index may end in a slot.
* `Schedule.mayEnd_iff`: these are the slots in which the search may stop.
* `insert_earliest_lands`: where the operation goes, and what becomes of the schedule.
-/

namespace Timetable

variable {ω : Type} [Operation ω]

/-- The operation can be placed at the index: there is no slot yet, or nothing in the slot acts on
its resources and the acceptance rule, if there is one, lets it join. -/
def HasRoom (s : Schedule ω) (k : Nat) (op : ω) : Prop :=
  ∀ slot, s.slots[k]? = some slot →
    (∀ a ∈ slot.operations, ¬SharesResource a op) ∧ s.accepts op slot = true

/-- The operation, moving back from `k`, may end in the slot of index `q`. -/
structure MayEnd (s : Schedule ω) (op : ω) (k q : Nat) : Prop where
  le : q ≤ k
  /-- It conflicts with nothing from that slot up to `k`, neither by a resource nor by a key. -/
  free : ∀ i, q ≤ i → i < k → ∀ a ∈ operationsAt s.slots i, ¬Conflict a op
  /-- It has not moved, or the acceptance rule lets it join the slot. -/
  accepted : q = k ∨ ∃ slot, s.slots[q]? = some slot ∧ s.accepts op slot = true

namespace Schedule

theorem fits_iff_hasRoom {s : Schedule ω} (hs : s.Sound) {k : Nat} {op : ω} :
    s.fits k op = true ↔ HasRoom s k op := by
  rw [fits, HasRoom]
  cases hslot : s.slots[k]? with
  | none => simp
  | some slot =>
    have hsound : slot.Sound := hs slot (List.mem_of_getElem? hslot)
    simp only [Option.some.injEq, forall_eq', Bool.and_eq_true, Bool.not_eq_true',
      ← Bool.not_eq_true, hsound.touches_iff_sharesResource, not_exists, not_and]

/-- The slots in which an operation may end are those in which the search may stop. -/
theorem mayEnd_iff {s : Schedule ω} (hs : s.Sound) {k : Nat} (hk : k ≤ s.length) {op : ω}
    {q : Nat} : MayEnd s op k q ↔ q = k ∨ s.IsStop op k q := by
  constructor
  · intro h
    rcases Nat.eq_or_lt_of_le h.le with heq | hlt
    · exact .inl heq
    · refine .inr ⟨hlt, (fits_iff_hasRoom hs).2 fun slot hslot => ?_, fun i hqi hi => ?_⟩
      · obtain ⟨slot', hslot', haccept⟩ := h.accepted.resolve_left (Nat.ne_of_lt hlt)
        rw [hslot] at hslot'
        cases hslot'
        refine ⟨fun a ha hshare => ?_, haccept⟩
        exact h.free q (Nat.le_refl q) hlt a (mem_operationsAt.2 ⟨slot, hslot, ha⟩) (.inl hshare)
      · exact (canCross_iff hs).2 (h.free i hqi hi)
  · rintro (rfl | ⟨hlt, hfit, hcross⟩)
    · exact ⟨Nat.le_refl q, fun i hqi hi => absurd hi (Nat.not_lt.2 hqi), .inl rfl⟩
    · refine ⟨Nat.le_of_lt hlt, fun i hqi hi => (canCross_iff hs).1 (hcross i hqi hi), .inr ?_⟩
      have hlen : q < s.slots.length := Nat.lt_of_lt_of_le hlt hk
      have hslot : s.slots[q]? = some s.slots[q] := List.getElem?_eq_getElem hlen
      exact ⟨_, hslot, ((fits_iff_hasRoom hs).1 hfit _ hslot).2⟩

/-- An operation with room at the index goes into the least slot in which it may end. -/
theorem exists_pickSlot_earliest {s : Schedule ω} (hs : s.Sound) {k : Nat} (hk : k ≤ s.length)
    {op : ω} (hroom : HasRoom s k op) :
    ∃ q, s.pickSlot k op .earliest = (q, s) ∧ IsLeast {q | MayEnd s op k q} q := by
  have hleast := s.isLeast_earliestSlot op hk (Nat.le_refl k)
  simp only [← mayEnd_iff hs hk] at hleast
  exact ⟨_, if_pos ((fits_iff_hasRoom hs).2 hroom), hleast⟩

/-- Where it may end, nothing shares its resources. -/
theorem untouched_of_mayEnd {s : Schedule ω} (hs : s.Sound) {k q : Nat} {op : ω}
    (hroom : HasRoom s k op) (h : MayEnd s op k q) : s.Untouched op q := by
  rcases Nat.eq_or_lt_of_le h.le with rfl | hlt
  · exact untouched_of_fits hs ((fits_iff_hasRoom hs).2 hroom)
  · exact fun a ha hshare => h.free q (Nat.le_refl q) hlt a ha (.inl hshare)

omit [Operation ω] in
/-- A slot made at the end leaves the others alone. -/
theorem getElem?_padTo_of_ne {s : Schedule ω} {p i : Nat} (hp : p ≤ s.length) (hi : p ≠ i) :
    (s.padTo (p + 1)).slots[i]? = s.slots[i]? := by
  rcases Nat.lt_or_gt_of_ne hi with hlt | hgt
  · exact getElem?_padTo hlt
  · exact List.getElem?_append_left (Nat.lt_of_lt_of_le hgt hp)

end Schedule

/-- **Where an operation lands.** An operation with room at the index goes into the least slot that
it reaches from there without passing a conflict and that it is let into, or stays at the index. It
is added to that slot, no other slot changes, and none is opened except at the end. -/
theorem insert_earliest_lands {s : Schedule ω} (hs : s.Sound) {k : Nat} (hk : k ≤ s.length) {op : ω}
    (hnd : (resources op).Nodup) (hnest : nestsInItself op = false) (hroom : HasRoom s k op) :
    ∃ q s', s.insert k (.operation op) .earliest = ⟨s', .ok (max k (q + 1))⟩ ∧
      IsLeast {q | MayEnd s op k q} q ∧ s'.acceptance = s.acceptance ∧
      s'.length = (if q = s.length then s.length + 1 else s.length) ∧
      operationsAt s'.slots q = operationsAt s.slots q ++ [op] ∧
      ∀ i, q ≠ i → s'.slots[i]? = s.slots[i]? := by
  obtain ⟨q, hpick, hleast⟩ := Schedule.exists_pickSlot_earliest hs hk hroom
  have hfree : s.Untouched op q := Schedule.untouched_of_mayEnd hs hroom hleast.1
  have hq : q ≤ s.length := Nat.le_trans hleast.1.le hk
  obtain ⟨s', hpush, hrule, hlen, -, hlayout⟩ := Schedule.exists_landing hs hnd hfree
  refine ⟨q, s', ?_, hleast, hrule, ?_, ?_, fun i hi => ?_⟩
  · have hitems : (Bundle.operation op).items = [Item.operation op] := rfl
    have hcheck : Schedule.checkItems [Item.operation op] = .ok () := by
      rw [Schedule.checkItems_eq_ok_iff, List.forall_mem_singleton]
      exact Schedule.checkOperation_eq_ok_iff.2 ⟨hnd, hnest⟩
    rw [Schedule.insert, hitems, hcheck]
    dsimp only
    rw [Nat.min_eq_left hk, Schedule.insertItems_of_pushAt hpick hpush, Schedule.insertItems]
  · rw [hlen]
    split <;> omega
  · rw [hlayout.content_of_id, landedIn_singleton, if_pos rfl]
  · rw [Schedule.getElem?_of_pushAt hpush hi, Schedule.getElem?_padTo_of_ne hq hi]

/-- Under a rule that keeps operations apart, an operation passes the slot before the index, which
is not free, and goes into the one in front of it, which is. There it is behind an operation on its
resource. -/
theorem insert_earliest_lands_past_refusal :
    let a : Instruction := { name := "a", resources := [.line 0] }
    let b : Instruction := { name := "b", resources := [.line 1] }
    let x : Instruction := { name := "x", resources := [.line 0, .line 2] }
    let apart : Acceptance Instruction := ⟨0, fun _ slot => slot.isEmpty⟩
    let s := (Schedule.ofSlots ([[a], [], [b], [], [a]].map Slot.ofApart)).withAcceptance apart
    (s.Sound ∧ 3 ≤ s.length ∧ (resources x).Nodup ∧ nestsInItself x = false ∧ HasRoom s 3 x) ∧
      ∃ q s', s.insert 3 (.operation x) .earliest = ⟨s', .ok (max 3 (q + 1))⟩ ∧
        IsLeast {q | MayEnd s x 3 q} q ∧ s'.acceptance = s.acceptance ∧
        s'.length = (if q = s.length then s.length + 1 else s.length) ∧
        operationsAt s'.slots q = operationsAt s.slots q ++ [x] ∧
        ∀ i, q ≠ i → s'.slots[i]? = s.slots[i]? := by
  intro a b x apart s
  have hs : s.Sound := Slot.sound_map_ofApart (by decide)
  have hnd : (resources x).Nodup := by decide
  have hroom : HasRoom s 3 x := (Schedule.fits_iff_hasRoom hs).1 (by decide +kernel)
  exact ⟨⟨hs, by decide, hnd, rfl, hroom⟩, insert_earliest_lands hs (by decide) hnd rfl hroom⟩

end Timetable
