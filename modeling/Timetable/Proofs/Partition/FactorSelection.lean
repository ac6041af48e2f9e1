import Timetable.Proofs.Partition.Factor
import Timetable.Proofs.Selection.Between

/-!
# Selections on a factor

Cutting slots down to an independent set moves operations to other places of their slots, but keeps
their order, and no two operations come to stand at one place. So the places that are queued for the
factor and for the whole are related one by one, and the same operations come out. A scan for
blockers passes over the operations beside the set: they find nothing, and cut off nothing in it.

* `SamePlace`: where an operation on the set stands in the factor and in the whole.
* `Separate.forall₂_placesBetween`, `Separate.operationsBetween_eq`: operations between two frontiers.
* `ScanAlike`: scans that have found the same and have cut off the same resources of the set.
* `Separate.operationsUntilBlocked_eq`: operations up to where blockers cut a frontier off.
* `AnswersAlike`: slots that answer every question about the set alike.
* `factorize_answersAlike`: the factors of a schedule answer like the schedule.
-/

namespace Timetable

variable {ω : Type} [Operation ω] {P : SortedSet Resource} {slots : List (Slot ω)}

/-! ### Between two frontiers -/

/-- In a slot and its projection the operation on a resource of the set is the same. -/
theorem Slot.Sound.rel_positionOf? {slot : Slot ω} (hs : slot.Sound) {r : Resource} (hr : r ∈ P) :
    Option.Rel (fun p q => ∃ op, (slot.project P.toList).operations[p]? = some op ∧
        slot.operations[q]? = some op ∧ r ∈ resources op)
      ((slot.project P.toList).positionOf? r) (slot.positionOf? r) := by
  have hpart := hs.project P.toList
  cases hq : slot.positionOf? r with
  | some q =>
    obtain ⟨op, hop, hro⟩ := (hs.positionOf?_iff r q).1 hq
    have hkept : op ∈ (slot.project P.toList).operations :=
      List.mem_filter.2 ⟨List.mem_of_getElem? hop, Slot.actsOnAny_iff.2 ⟨r, hro, hr⟩⟩
    obtain ⟨p, hp⟩ := List.mem_iff_getElem?.1 hkept
    rw [(hpart.positionOf?_iff r p).2 ⟨op, hp, hro⟩]
    exact .some ⟨op, hp, hop, hro⟩
  | none =>
    cases hp : (slot.project P.toList).positionOf? r with
    | none => exact .none
    | some p =>
      obtain ⟨op, hop, hro⟩ := (hpart.positionOf?_iff r p).1 hp
      have hmem := (List.mem_filter.1 (List.mem_of_getElem? hop)).1
      refine absurd (List.mem_flatMap.2 ⟨op, hmem, hro⟩) ?_
      exact hs.positionOf?_eq_none_iff.1 hq

/-- The same operation on the set stands at a place of the factor and at a place of the whole. -/
def SamePlace (P : SortedSet Resource) (slots : List (Slot ω)) (a b : Nat × Nat) : Prop :=
  a.1 = b.1 ∧ ∃ op, (operationsAt (factorOn P slots) a.1)[a.2]? = some op ∧
    (operationsAt slots b.1)[b.2]? = some op ∧ ∃ r ∈ resources op, r ∈ P

/-- Related lists from which the same is read. -/
theorem filterMap_eq_of_forall₂ {α β γ : Type} {R : α → β → Prop} {f : α → Option γ}
    {g : β → Option γ} {l : List α} {m : List β} (h : List.Forall₂ R l m)
    (hfg : ∀ a b, R a b → f a = g b) : l.filterMap f = m.filterMap g := by
  induction h with
  | nil => rfl
  | @cons a b _ _ hab _ ih => rw [List.filterMap_cons, List.filterMap_cons, hfg a b hab, ih]

namespace Separate

/-- A place of the one belongs to at most one place of the other. -/
theorem biUnique_samePlace (h : Separate P slots) : Relator.BiUnique (SamePlace P slots) := by
  constructor
  · intro a b c hac hbc
    obtain ⟨hindex, op, hp, hx, r, hr, -⟩ := hac
    obtain ⟨hindex', op', hq, hx', -⟩ := hbc
    have hab : a.1 = b.1 := hindex.trans hindex'.symm
    obtain rfl : op = op' := Option.some.inj (hx.symm.trans hx')
    rw [← hab] at hq
    exact Prod.ext hab (place_unique h.sound_factorOn hp hq hr hr)
  · intro a b c hab hac
    obtain ⟨hindex, op, hx, hp, r, hr, -⟩ := hab
    obtain ⟨hindex', op', hx', hq, -⟩ := hac
    have hbc : b.1 = c.1 := hindex.symm.trans hindex'
    obtain rfl : op = op' := Option.some.inj (hx.symm.trans hx')
    rw [← hbc] at hq
    exact Prod.ext hbc (place_unique h.sound hp hq hr hr)

theorem forall₂_placesOn (h : Separate P slots) {r : Resource} (hr : r ∈ P)
    (involved : SortedSet Resource) (omitCrossing : Bool) (first last : Nat) :
    List.Forall₂ (SamePlace P slots) (placesOn (factorOn P slots) involved omitCrossing r first last)
      (placesOn slots involved omitCrossing r first last) := by
  rw [placesOn, placesOn, length_factorOn]
  refine List.rel_filterMap ?_ (List.forall₂_eq_eq_eq ▸ rfl)
  rintro index _ rfl
  dsimp only
  rw [getElem?_factorOn]
  cases hslot : slots[index]? with
  | none => exact .none
  | some slot =>
    have hs := h.sound slot (List.mem_of_getElem? hslot)
    have hpart : (factorOn P slots)[index]? = some (slot.project P.toList) := by
      rw [getElem?_factorOn, hslot]
      rfl
    have hrel := hs.rel_positionOf? hr
    rw [Option.map_some, Option.bind_eq_bind, Option.bind_eq_bind, Option.bind_some, Option.bind_some]
    generalize (slot.project P.toList).positionOf? r = p? at hrel
    generalize slot.positionOf? r = q? at hrel
    cases hrel with
    | none => exact .none
    | some hplace =>
      obtain ⟨op, hp, hq, hro⟩ := hplace
      simp only [Option.bind_eq_bind, Option.bind_some, hp, hq]
      split
      · exact .none
      · refine .some ⟨rfl, op, ?_, ?_, r, hro, hr⟩
        · rw [operationsAt_of_getElem? hpart]
          exact hp
        · rw [operationsAt_of_getElem? hslot]
          exact hq

/-- The places that are queued for frontiers of resources of the set. -/
theorem forall₂_placesBetween (h : Separate P slots) {start stop : Frontier}
    (hstart : ∀ r ∈ start.keys, r ∈ P) (hstop : ∀ r ∈ stop.keys, r ∈ P) (omitCrossing : Bool) :
    List.Forall₂ (SamePlace P slots) (placesBetween (factorOn P slots) start stop omitCrossing)
      (placesBetween slots start stop omitCrossing) := by
  rw [placesBetween, placesBetween, length_factorOn]
  refine List.rel_flatMap (R := fun r r' => r = r' ∧ r ∈ P) ?_ ?_
  · refine List.forall₂_same.2 fun r hr => ⟨rfl, ?_⟩
    rcases List.mem_append.1 (SortedSet.mem_ofList.1 hr) with hr | hr
    · exact hstart r hr
    · exact hstop r hr
  · rintro r _ ⟨rfl, hr⟩
    exact h.forall₂_placesOn hr _ omitCrossing _ _

/-- Between two frontiers of resources of the set the factor holds the same operations, in the same
order. -/
theorem operationsBetween_eq (h : Separate P slots) {start stop : Frontier}
    (hstart : ∀ r ∈ start.keys, r ∈ P) (hstop : ∀ r ∈ stop.keys, r ∈ P) (omitCrossing : Bool) :
    operationsBetween (factorOn P slots) start stop omitCrossing =
      operationsBetween slots start stop omitCrossing := by
  have hfound := BucketQueue.forall₂_drain h.biUnique_samePlace (fun _ _ hab => hab.1)
    (h.forall₂_placesBetween hstart hstop omitCrossing)
  rw [operationsBetween_eq_drain, operationsBetween_eq_drain]
  refine filterMap_eq_of_forall₂ hfound fun a b hab => ?_
  obtain ⟨hindex, op, ha, hb, -⟩ := hab
  rw [operationAtPlace?, operationAtPlace?, ← getElem?_operationsAt, ← getElem?_operationsAt, ha, hb,
    hindex]

end Separate

/-! ### Until blocked -/

/-- Two scans have found the same and have cut off the same resources of the set. -/
structure ScanAlike (P : SortedSet Resource) (s t : Scan ω) : Prop where
  found_eq : s.found = t.found
  blocked_eq : ∀ r ∈ P, s.blocked.contains r = t.blocked.contains r

namespace ScanAlike

variable {s t : Scan ω} {start : Frontier} {blocks : ω → Bool} {index : Nat} {op : ω}

omit [Operation ω] in
theorem any_blocked_eq (h : ScanAlike P s t) {rs : List Resource} (hrs : ∀ r ∈ rs, r ∈ P) :
    rs.any s.blocked.contains = rs.any t.blocked.contains := by
  rw [Bool.eq_iff_iff, List.any_eq_true, List.any_eq_true]
  refine exists_congr fun r => and_congr_right fun hr => ?_
  rw [h.blocked_eq r (hrs r hr)]

omit [Operation ω] in
theorem all_blocked_eq (h : ScanAlike P s t) {rs : List Resource} (hrs : ∀ r ∈ rs, r ∈ P) :
    rs.all s.blocked.contains = rs.all t.blocked.contains := by
  rw [Bool.eq_iff_iff, List.all_eq_true, List.all_eq_true]
  refine forall_congr' fun r => imp_congr_right fun hr => ?_
  rw [h.blocked_eq r (hrs r hr)]

/-- Both scans look at an operation on the set. -/
theorem look (h : ScanAlike P s t) (hop : ∀ r ∈ resources op, r ∈ P) :
    ScanAlike P (s.look start blocks index op) (t.look start blocks index op) := by
  rw [Scan.look, Scan.look, h.any_blocked_eq hop]
  split
  · refine ⟨h.found_eq, fun r hr => ?_⟩
    have hiff := h.blocked_eq r hr
    rw [Bool.eq_iff_iff, SortedSet.contains_iff, SortedSet.contains_iff] at hiff ⊢
    rw [SortedSet.mem_insertAll, SortedSet.mem_insertAll, hiff]
  · split
    · exact ⟨by rw [h.found_eq], h.blocked_eq⟩
    · exact h

/-- One scan looks at an operation beside the set. -/
theorem pass (h : ScanAlike P s t) (hstart : ∀ r ∈ start.keys, r ∈ P)
    (hop : ∀ r ∈ resources op, r ∉ P) : ScanAlike P s (t.look start blocks index op) := by
  rw [Scan.look]
  split
  · refine ⟨h.found_eq, fun r hr => ?_⟩
    rw [h.blocked_eq r hr, Bool.eq_iff_iff, SortedSet.contains_iff, SortedSet.contains_iff,
      SortedSet.mem_insertAll]
    exact (or_iff_left fun hmem => hop r hmem hr).symm
  · split
    · rename_i hreached
      obtain ⟨r, hr, hbegun⟩ := List.any_eq_true.1 hreached
      obtain ⟨first, hfirst, -⟩ := (Option.any_eq_true _ _).1 hbegun
      exact absurd (hstart r (SortedMap.mem_keys_iff.2 ⟨first, hfirst⟩)) (hop r hr)
    · exact h

/-- A slot and its projection. -/
theorem foldl_look (h : ScanAlike P s t) (hstart : ∀ r ∈ start.keys, r ∈ P) {ops : List ω}
    (hclosed : ∀ op ∈ ops, ∀ r ∈ resources op, r ∈ P → ∀ r' ∈ resources op, r' ∈ P) :
    ScanAlike P ((ops.filter (Slot.actsOnAny P.toList)).foldl (Scan.look start blocks index) s)
      (ops.foldl (Scan.look start blocks index) t) := by
  induction ops generalizing s t with
  | nil => exact h
  | cons op ops ih =>
    obtain ⟨hop, hops⟩ := List.forall_mem_cons.1 hclosed
    rw [List.filter_cons, List.foldl_cons]
    split
    · rename_i hacts
      obtain ⟨r, hr, hrP⟩ := Slot.actsOnAny_iff.1 hacts
      exact ih (h.look (hop r hr hrP)) hops
    · rename_i hacts
      refine ih (h.pass hstart fun r hr hrP => ?_) hops
      exact hacts (Slot.actsOnAny_iff.2 ⟨r, hr, hrP⟩)

/-- Slots and their projections, up to where every resource is cut off. -/
theorem run (h : ScanAlike P s t) (hstart : ∀ r ∈ start.keys, r ∈ P)
    {numbered : List (Slot ω × Nat)}
    (hclosed : ∀ e ∈ numbered, ∀ op ∈ e.1.operations, ∀ r ∈ resources op, r ∈ P →
      ∀ r' ∈ resources op, r' ∈ P) :
    ScanAlike P
      (Scan.run start blocks s (numbered.map fun e => (e.1.project P.toList, e.2)))
      (Scan.run start blocks t numbered) := by
  induction numbered generalizing s t with
  | nil => exact h
  | cons e numbered ih =>
    obtain ⟨he, hrest⟩ := List.forall_mem_cons.1 hclosed
    obtain ⟨slot, index⟩ := e
    have hnext : ScanAlike P
        ((slot.project P.toList).operations.foldl (Scan.look start blocks index) s)
        (slot.operations.foldl (Scan.look start blocks index) t) := h.foldl_look hstart he
    rw [List.map_cons, Scan.run, Scan.run]
    dsimp only
    rw [hnext.all_blocked_eq hstart]
    split
    · exact hnext
    · exact ih hnext hrest

end ScanAlike

/-- Blockers cut off a frontier of resources of the set in the factor as in the whole, and what is
found before is the same. -/
theorem Separate.operationsUntilBlocked_eq (h : Separate P slots) {start : Frontier}
    (hstart : ∀ r ∈ start.keys, r ∈ P) (blocks : ω → Bool) :
    operationsUntilBlocked (factorOn P slots) start blocks =
      operationsUntilBlocked slots start blocks := by
  rw [operationsUntilBlocked, operationsUntilBlocked]
  cases start.values.min? with
  | none => rfl
  | some least =>
    have hnumbered : (factorOn P slots).zipIdx.drop least =
        (slots.zipIdx.drop least).map fun e => (e.1.project P.toList, e.2) := by
      rw [factorOn, List.zipIdx_map, List.map_drop]
      rfl
    have hclosed : ∀ e ∈ slots.zipIdx.drop least, ∀ op ∈ e.1.operations, ∀ r ∈ resources op,
        r ∈ P → ∀ r' ∈ resources op, r' ∈ P := by
      intro e he
      exact h.closed e.1 (List.fst_mem_of_mem_zipIdx (List.mem_of_mem_drop he))
    dsimp only
    rw [hnumbered]
    exact (ScanAlike.run ⟨rfl, fun _ _ => rfl⟩ hstart hclosed).found_eq

/-! ### All questions -/

/-- Asked about resources of the set `P` alone, the slots `part` give the same answers as the slots
`whole`. -/
structure AnswersAlike (P : SortedSet Resource) (part whole : List (Slot ω)) : Prop where
  nextSlot_eq : ∀ rs start distance, (∀ r ∈ rs, r ∈ P) →
    nextSlot part rs start distance = nextSlot whole rs start distance
  nextUses_eq : ∀ rs start, (∀ r ∈ rs, r ∈ P) → nextUses part rs start = nextUses whole rs start
  prevSlot_eq : ∀ rs stop distance, (∀ r ∈ rs, r ∈ P) →
    prevSlot part rs stop distance = prevSlot whole rs stop distance
  reachableFrontier_eq : ∀ (start : Frontier) blocks, (∀ r ∈ start.keys, r ∈ P) →
    reachableFrontier part start blocks = reachableFrontier whole start blocks
  operationsBetween_eq : ∀ (start stop : Frontier) omitCrossing, (∀ r ∈ start.keys, r ∈ P) →
    (∀ r ∈ stop.keys, r ∈ P) →
    operationsBetween part start stop omitCrossing = operationsBetween whole start stop omitCrossing
  operationsUntilBlocked_eq : ∀ (start : Frontier) blocks, (∀ r ∈ start.keys, r ∈ P) →
    operationsUntilBlocked part start blocks = operationsUntilBlocked whole start blocks

theorem AnswersAlike.refl (P : SortedSet Resource) (slots : List (Slot ω)) :
    AnswersAlike P slots slots where
  nextSlot_eq _ _ _ _ := rfl
  nextUses_eq _ _ _ := rfl
  prevSlot_eq _ _ _ _ := rfl
  reachableFrontier_eq _ _ _ := rfl
  operationsBetween_eq _ _ _ _ _ := rfl
  operationsUntilBlocked_eq _ _ _ := rfl

theorem Separate.answersAlike (h : Separate P slots) : AnswersAlike P (factorOn P slots) slots where
  nextSlot_eq _ start distance hrs := h.nextSlot_eq hrs start distance
  nextUses_eq _ start hrs := h.nextUses_eq hrs start
  prevSlot_eq _ stop distance hrs := h.prevSlot_eq hrs stop distance
  reachableFrontier_eq _ blocks hstart := h.reachableFrontier_eq hstart blocks
  operationsBetween_eq _ _ omitCrossing hstart hstop := h.operationsBetween_eq hstart hstop omitCrossing
  operationsUntilBlocked_eq _ blocks hstart := h.operationsUntilBlocked_eq hstart blocks

/-- An independent resource set separates. -/
theorem separate_of_mem_independentResources (hs : ∀ slot ∈ slots, slot.Sound)
    (hP : P ∈ independentResources slots) : Separate P slots where
  sound := hs
  closed slot hslot op hop r hr hrP r' hr' := by
    have hmem : op ∈ slots.flatMap Slot.operations := List.mem_flatMap.2 ⟨slot, hslot, hop⟩
    exact (components_independentResources hs).mem_of_together hmem hr hr' hP hrP

/-- **The factors of a schedule answer like the schedule.** To every independent resource set there
is a factor, and to questions about resources of that set alone it gives the same answers as the
whole schedule. -/
theorem factorize_answersAlike {s : Schedule ω} (hs : s.Sound) {i : Nat} {P : SortedSet Resource}
    (h : (independentResources s.slots)[i]? = some P) :
    ∃ factor, s.factorize[i]? = some factor ∧ AnswersAlike P factor.slots s.slots := by
  have hseparate := separate_of_mem_independentResources hs (List.mem_of_getElem? h)
  rw [Schedule.factorize, factorSlots?]
  generalize independentResources s.slots = classes at h
  split
  · rename_i hnone
    split at hnone
    · -- The schedule is its own only factor.
      obtain rfl : i = 0 := by
        have hlt := (List.getElem?_eq_some_iff.1 h).1
        simpa using hlt
      exact ⟨s, rfl, .refl P s.slots⟩
    · cases hnone
  · rename_i hsome
    split at hsome
    · cases hsome
    · cases hsome
      refine ⟨{ s with slots := factorOn P s.slots }, ?_, hseparate.answersAlike⟩
      rw [List.getElem?_map, List.getElem?_map, h]
      rfl

/-- The second of two classes. Its operations stand behind another one in the whole, and first in
their slots in the factor. -/
theorem factorize_answersAlike_second :
    let a : Instruction := { name := "a", resources := [.line 0, .line 1] }
    let b : Instruction := { name := "b", resources := [.line 2] }
    let slot : Slot Instruction :=
      ⟨[a, b], ((SortedMap.insert ∅ (.line 0) 0).insert (.line 1) 0).insert (.line 2) 1⟩
    let s := Schedule.ofSlots [slot, slot]
    let P : SortedSet Resource := SortedSet.ofList [.line 2]
    (s.Sound ∧ (independentResources s.slots)[1]? = some P) ∧
      ∃ factor, s.factorize[1]? = some factor ∧ AnswersAlike P factor.slots s.slots := by
  intro a b slot s P
  have hslot : slot.Sound := Slot.Sound.ofOperations (rfl : Slot.ofOperations [a, b] = .ok slot)
  have hs : s.Sound := by
    show ∀ t ∈ [slot, slot], t.Sound
    simp [hslot]
  have hP : (independentResources s.slots)[1]? = some P := by decide +kernel
  exact ⟨⟨hs, hP⟩, factorize_answersAlike hs hP⟩

end Timetable
