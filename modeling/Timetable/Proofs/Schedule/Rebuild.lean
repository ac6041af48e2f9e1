import Timetable.Proofs.Schedule.Levels

/-!
# Building a schedule anew

The operations of a schedule, taken slot by slot, are a list again, and have a schedule of their
own. In it, no two operations of a slot conflict, and each behind the first slot conflicts with one
in the slot before. So its operations with the indices of their slots are a levelled record, the
one of their list: building once more changes nothing. And a schedule in whose slots no keys order
anything is an assignment of slots that keeps the order, so it has no fewer slots.

* `Schedule.rebuild`: the schedule of the operations of a schedule.
* `keepsOrder_indexedOperations`: slots without conflicts keep the order of what they list.
* `Arranged.levelled_indexedOperations`: the slots of a levelled record list that record again.
* `rebuild_normalForm`: building anew gives a normal form, which is no longer.
-/

namespace Timetable

variable {ω : Type} [Operation ω]

/-- The schedule of the operations, taken in the order of slots, then of adding. -/
def Schedule.rebuild (s : Schedule ω) : Except Fault (Schedule ω) :=
  ofBundle (.ofList s.operations) .earliest

/-! ### Slots as a record -/

/-- Operations that a record which keeps the order has in one slot do not conflict. -/
theorem KeepsOrder.pairwise_landedIn {placed : List (Nat × ω)} (h : KeepsOrder placed) (x : Nat) :
    (landedIn placed x).Pairwise fun a b => ¬Conflict a b := by
  refine List.pairwise_map.2 ((List.Pairwise.filter _ h).imp_of_mem ?_)
  intro e f he hf hlt hconf
  have hex : e.1 = x := by simpa using (List.mem_filter.1 he).2
  have hfx : f.1 = x := by simpa using (List.mem_filter.1 hf).2
  have := hlt hconf
  omega

/-- Where no slot holds a conflict, slots keep the order of what they list. -/
theorem keepsOrder_indexedOperations {slots : List (Slot ω)}
    (h : ∀ slot ∈ slots, slot.operations.Pairwise fun a b => ¬Conflict a b) :
    KeepsOrder (Schedule.indexedOperations slots) := by
  have hindices : slots.zipIdx.Pairwise fun e f => e.2 < f.2 := by
    have hrange : (slots.zipIdx.map Prod.snd).Pairwise (· < ·) := by
      rw [List.zipIdx_map_snd]
      exact List.pairwise_lt_range'
    exact List.pairwise_map.1 hrange
  refine List.pairwise_flatMap.2 ⟨fun e he => ?_, hindices.imp fun {e f} hlt => ?_⟩
  · refine List.pairwise_map.2 ((h e.1 (List.fst_mem_of_mem_zipIdx he)).imp ?_)
    exact fun hfree hconf => absurd hconf hfree
  · intro a ha b hb _
    obtain ⟨_, -, rfl⟩ := List.mem_map.1 ha
    obtain ⟨_, -, rfl⟩ := List.mem_map.1 hb
    exact hlt

namespace Arranged

variable {placed : List (Nat × ω)} {slots : List (Slot ω)}

/-- Slots of a levelled record list it in another order, and that is levelled too. -/
theorem levelled_indexedOperations (h : Arranged placed slots) (hlevelled : Levelled placed) :
    Levelled (Schedule.indexedOperations slots) := by
  apply hlevelled.of_mem_iff h.mem_indexedOperations_iff
  apply keepsOrder_indexedOperations
  intro slot hslot
  obtain ⟨x, hx⟩ := List.mem_iff_getElem?.1 hslot
  rw [← operationsAt_of_getElem? hx, h.content]
  exact hlevelled.keepsOrder.pairwise_landedIn x

theorem arranged_indexedOperations (h : Arranged placed slots) :
    Arranged (Schedule.indexedOperations slots) slots where
  sound := h.sound
  content x := (landedIn_indexedOperations slots x).symm
  occupied x hx := by
    obtain ⟨op, hop⟩ := h.occupied x hx
    exact ⟨op, (h.mem_indexedOperations_iff _).2 hop⟩

end Arranged

/-! ### Building anew -/

/-- **Building anew gives a normal form.** What has been built from the operations of a schedule is
built from its own operations again, with the same order in each slot. It is no longer than the
schedule, if no slot of that one holds two operations of which one reads what the other writes. Or
nothing is built, because of an operation that nests in itself. -/
theorem rebuild_normalForm {s : Schedule ω} (hnd : ∀ op ∈ s.operations, (resources op).Nodup) :
    (∃ c, s.rebuild = .ok c ∧ c.rebuild = .ok c ∧
      (s.Sound → (∀ slot ∈ s.slots, slot.operations.Pairwise fun a b => ¬SharesKey a b) →
        c.length ≤ s.length)) ∨
    Schedule.RefusesNesting s.operations := by
  rcases Schedule.refusesNesting_or_fit hnd with hrefused | hfit
  · exact .inr hrefused
  obtain ⟨placed, hops, hlevelled⟩ := exists_levelled hnd
  obtain ⟨c, hc, hrule, harranged⟩ := hlevelled.ofBundle hops hfit
  refine .inl ⟨c, hc, ?_, fun hs hkeys => ?_⟩
  · have hlisted : (Schedule.indexedOperations c.slots).map Prod.snd = c.operations :=
      map_snd_indexedOperations c.slots
    have hfit' : ∀ op ∈ c.operations, (resources op).Nodup ∧ nestsInItself op = false := fun op hop =>
      hfit op (hops ▸ harranged.mem_operations_iff.1 hop)
    exact (harranged.levelled_indexedOperations hlevelled).ofBundle_eq hlisted hfit' hrule
      harranged.arranged_indexedOperations
  · have hkept : KeepsOrder (Schedule.indexedOperations s.slots) := by
      apply keepsOrder_indexedOperations
      intro slot hslot
      refine ((hs slot hslot).pairwise_not_shares.and (hkeys slot hslot)).imp ?_
      exact fun hfree hconf => hconf.elim hfree.1 hfree.2
    have hbelow : ∀ e ∈ Schedule.indexedOperations s.slots, e.1 < s.length := fun e he =>
      lt_length_of_mem_operationsAt (mem_indexedOperations_iff.1 he)
    have hlt := hlevelled.lt_of_keepsOrder hkept
      (hops.trans (map_snd_indexedOperations s.slots).symm) hbelow
    refine Nat.le_of_not_lt fun hlong => ?_
    obtain ⟨op, hop⟩ := harranged.occupied s.length hlong
    exact absurd (hlt _ hop) (Nat.lt_irrefl _)

/-- A measurement that waits for nothing, in a slot of its own, and an instruction that waits for its
outcome. Built anew, the measurement is in the first slot. -/
theorem rebuild_normalForm_shorter :
    let m : Key := ⟨"m", by decide⟩
    let h : Instruction := { name := "h", resources := [.line 1] }
    let measure : Instruction :=
      { name := "measure", resources := [.line 0], writes := SortedSet.ofList [m] }
    let x : Instruction := { name := "x", resources := [.line 1], reads := SortedSet.ofList [m] }
    let slotH : Slot Instruction := ⟨[h], SortedMap.insert ∅ (.line 1) 0⟩
    let slotM : Slot Instruction := ⟨[measure], SortedMap.insert ∅ (.line 0) 0⟩
    let slotX : Slot Instruction := ⟨[x], SortedMap.insert ∅ (.line 1) 0⟩
    let s : Schedule Instruction := .ofSlots [slotH, slotM, slotX]
    ((∀ op ∈ s.operations, (resources op).Nodup) ∧ s.Sound ∧
      ∀ slot ∈ s.slots, slot.operations.Pairwise fun a b => ¬SharesKey a b) ∧
    ((∃ c, s.rebuild = .ok c ∧ c.rebuild = .ok c ∧ c.length ≤ s.length) ∨
      Schedule.RefusesNesting s.operations) := by
  intro m h measure x slotH slotM slotX s
  have hnd : ∀ op ∈ s.operations, (resources op).Nodup := by decide
  have hslotH : slotH.Sound := Slot.Sound.ofOperations (rfl : Slot.ofOperations [h] = .ok slotH)
  have hslotM : slotM.Sound :=
    Slot.Sound.ofOperations (rfl : Slot.ofOperations [measure] = .ok slotM)
  have hslotX : slotX.Sound := Slot.Sound.ofOperations (rfl : Slot.ofOperations [x] = .ok slotX)
  have hs : s.Sound := by
    show ∀ slot ∈ [slotH, slotM, slotX], slot.Sound
    simp [hslotH, hslotM, hslotX]
  have hkeys : ∀ slot ∈ s.slots, slot.operations.Pairwise fun a b => ¬SharesKey a b := by
    show ∀ slot ∈ [slotH, slotM, slotX], slot.operations.Pairwise fun a b => ¬SharesKey a b
    simp [slotH, slotM, slotX]
  refine ⟨⟨hnd, hs, hkeys⟩, (rebuild_normalForm hnd).imp_left fun hbuilt => ?_⟩
  obtain ⟨c, hc, hagain, hle⟩ := hbuilt
  exact ⟨c, hc, hagain, hle hs hkeys⟩

end Timetable
