import Timetable.Proofs.Partition.FactorSelection
import Timetable.Proofs.Schedule.Levels

/-!
# Independent resources are scheduled apart

Operations without keys conflict only on a common resource, so what conflicts with an operation on
an independent resource set acts on that set too. The part of a levelled record that is on the set
is then levelled by itself: nothing outside of the set keeps an operation from an earlier slot. So
the schedule of that part of the list is the factor of the set, up to the empty slots at its end.

* `Levelled.filter`: the part of a levelled record that nothing else conflicts with.
* `Arranged.factorOn_eq`: slots cut down to a set, and the slots of the part on the set.
* `Levelled.filter_actsOnAny`: the part on an independent resource set is such.
* `Schedule.factorize_eq_map`: the factors are the slots cut down to each set.
* `ofBundle_factorize`: each factor is the schedule of the operations on its set.
-/

namespace Timetable

variable {ω : Type}

theorem landedIn_filter (placed : List (Nat × ω)) (keep : ω → Bool) (x : Nat) :
    landedIn (placed.filter fun e => keep e.2) x = (landedIn placed x).filter keep := by
  rw [landedIn, landedIn, List.filter_map, List.filter_filter, List.filter_filter]
  simp only [Function.comp_apply, Bool.and_comm]

variable [Operation ω]

/-! ### Part of a record -/

/-- A part of a levelled record is levelled, when what conflicts with it belongs to it. -/
theorem Levelled.filter {placed : List (Nat × ω)} (h : Levelled placed) {keep : ω → Bool}
    (hkeep : ∀ e ∈ placed, ∀ f ∈ placed, Conflict f.2 e.2 → keep e.2 = true → keep f.2 = true) :
    Levelled (placed.filter fun e => keep e.2) where
  keepsOrder := List.Pairwise.filter _ h.keepsOrder
  supported e he d hd := by
    obtain ⟨he, hkept⟩ := List.mem_filter.1 he
    obtain ⟨f, hf, hfd, hconf⟩ := h.supported e he d hd
    exact ⟨f, List.mem_filter.2 ⟨hf, hkeep e he f hf hconf hkept⟩, hfd, hconf⟩

/-- What is left of the slots are the slots of the part, and empty ones behind them. -/
theorem Arranged.factorOn_eq {placed : List (Nat × ω)} {slots part : List (Slot ω)}
    (h : Arranged placed slots) (P : SortedSet Resource)
    (hpart : Arranged (placed.filter fun e => Slot.actsOnAny P.toList e.2) part) :
    part.length ≤ slots.length ∧
      factorOn P slots = part ++ List.replicate (slots.length - part.length) Slot.empty := by
  have hle : part.length ≤ slots.length := hpart.length_le h fun _ he => (List.mem_filter.1 he).1
  refine ⟨hle, slots_eq_of_operationsAt ?_ ?_ ?_ fun x => ?_⟩
  · intro slot hslot
    obtain ⟨whole, hwhole, rfl⟩ := List.mem_map.1 hslot
    exact (h.sound whole hwhole).project _
  · intro slot hslot
    rcases List.mem_append.1 hslot with hslot | hslot
    · exact hpart.sound slot hslot
    · rw [List.eq_of_mem_replicate hslot]
      exact Slot.sound_empty
  · rw [length_factorOn, List.length_append, List.length_replicate]
    omega
  · rw [factorOn, operationsAt_map_project, h.content, (Layout.pad part _).content_of_id, landedIn_nil,
      List.append_nil, hpart.content, landedIn_filter]

/-! ### Factors -/

/-- Without keys, the part of a levelled record on an independent resource set is levelled. -/
theorem Levelled.filter_actsOnAny {placed : List (Nat × ω)} {slots : List (Slot ω)}
    (h : Levelled placed) (harranged : Arranged placed slots)
    (hkeys : ∀ e ∈ placed, (footprint e.2).isEmpty = true) {P : SortedSet Resource}
    (hP : P ∈ independentResources slots) :
    Levelled (placed.filter fun e => Slot.actsOnAny P.toList e.2) := by
  have hseparate := separate_of_mem_independentResources harranged.sound hP
  apply h.filter
  intro e he f hf hconf hkept
  obtain ⟨r, hr, hrP⟩ := Slot.actsOnAny_iff.1 hkept
  obtain ⟨r', hrf, hre⟩ := hconf.sharesResource (hkeys e he)
  have hclosed : ∀ r' ∈ resources e.2, r' ∈ P :=
    hseparate.mem_of_shared (harranged.mem_operationsAt_iff.2 he) hr hrP
  exact Slot.actsOnAny_iff.2 ⟨r', hrf, hclosed r' hre⟩

/-- Where every operation acts on a resource, the factors are the slots cut down to each set, also
when there is just one set. -/
theorem Schedule.factorize_eq_map {s : Schedule ω} (hs : s.Sound)
    (hacts : ∀ op ∈ s.operations, resources op ≠ []) :
    s.factorize = (independentResources s.slots).map fun P =>
      { s with slots := factorOn P s.slots } := by
  have hclasses := components_independentResources hs
  rw [factorize, factorSlots?]
  generalize independentResources s.slots = classes at hclasses
  split
  · rename_i hnone
    split at hnone
    · rename_i P
      have hwhole : factorOn P s.slots = s.slots := by
        refine (List.map_congr_left fun slot hslot => ?_).trans (List.map_id _)
        apply ((hs slot hslot).project _).ext (hs slot hslot)
        refine List.filter_eq_self.2 fun op hop => ?_
        have hmem : op ∈ s.operations := List.mem_flatMap.2 ⟨slot, hslot, hop⟩
        have hcount := hclasses.countP_actsOnAny hmem (hacts op hmem)
        simpa using hcount
      rw [List.map_singleton, hwhole]
    · cases hnone
  · rename_i hsome
    split at hsome
    · cases hsome
    · cases hsome
      rw [List.map_map]
      rfl

/-- **Independent resources are scheduled apart.** Of a list of operations without keys, each factor
of the schedule is, slot by slot and in the same order within the slots, the schedule of those
operations of the list that act on its resources, with empty slots at the end up to the whole length.
Or there is no schedule, because of an operation that nests in itself. -/
theorem ofBundle_factorize {ops : List ω}
    (h : ∀ op ∈ ops, resources op ≠ [] ∧ (resources op).Nodup ∧ (footprint op).isEmpty = true) :
    (∃ s, Schedule.ofBundle (.ofList ops) .earliest = .ok s ∧
      List.Forall₂ (fun P factor => ∃ t,
          Schedule.ofBundle (.ofList (ops.filter (Slot.actsOnAny P.toList))) .earliest = .ok t ∧
          t.length ≤ s.length ∧ factor = t.padTo s.length)
        (independentResources s.slots) s.factorize) ∨
    Schedule.RefusesNesting ops := by
  have hnd : ∀ op ∈ ops, (resources op).Nodup := fun op hop => (h op hop).2.1
  rcases Schedule.refusesNesting_or_fit hnd with hrefused | hfit
  · exact .inr hrefused
  obtain ⟨placed, hops, hlevelled⟩ := exists_levelled hnd
  obtain ⟨s, hs, hrule, harranged⟩ := hlevelled.ofBundle hops hfit
  have hacts : ∀ op ∈ s.operations, resources op ≠ [] := fun op hop =>
    (h op (hops ▸ harranged.mem_operations_iff.1 hop)).1
  have hkeys : ∀ e ∈ placed, (footprint e.2).isEmpty = true := fun e he =>
    (h e.2 (hops ▸ List.mem_map_of_mem he)).2.2
  refine .inl ⟨s, hs, ?_⟩
  rw [Schedule.factorize_eq_map harranged.sound hacts, List.forall₂_map_right_iff, List.forall₂_same]
  intro P hP
  have hpart : (placed.filter fun e => Slot.actsOnAny P.toList e.2).map Prod.snd
      = ops.filter (Slot.actsOnAny P.toList) := by
    rw [← hops, List.filter_map]
    rfl
  obtain ⟨t, ht, htrule, htarranged⟩ :=
    (hlevelled.filter_actsOnAny harranged hkeys hP).ofBundle hpart fun op hop =>
      hfit op (List.mem_filter.1 hop).1
  obtain ⟨hle, hslots⟩ := harranged.factorOn_eq P htarranged
  refine ⟨t, ht, hle, ?_⟩
  rw [Schedule.padTo, hslots, hrule, htrule]
  rfl

/-- Two independent sets whose operations take turns in the list. One of the factors is shorter than
the schedule and is filled up. -/
theorem ofBundle_factorize_two :
    let a : Instruction := { name := "a", resources := [.line 0, .line 1] }
    let b : Instruction := { name := "b", resources := [.line 2] }
    let c : Instruction := { name := "c", resources := [.line 1] }
    let ops := [a, b, a, c]
    (∀ op ∈ ops, resources op ≠ [] ∧ (resources op).Nodup ∧ (footprint op).isEmpty = true) ∧
    ((∃ s, Schedule.ofBundle (.ofList ops) .earliest = .ok s ∧
      List.Forall₂ (fun P factor => ∃ t,
          Schedule.ofBundle (.ofList (ops.filter (Slot.actsOnAny P.toList))) .earliest = .ok t ∧
          t.length ≤ s.length ∧ factor = t.padTo s.length)
        (independentResources s.slots) s.factorize) ∨
    Schedule.RefusesNesting ops) := by
  intro a b c ops
  have h : ∀ op ∈ ops,
      resources op ≠ [] ∧ (resources op).Nodup ∧ (footprint op).isEmpty = true := by decide
  exact ⟨h, ofBundle_factorize h⟩

end Timetable
