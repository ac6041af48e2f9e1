import Timetable.Proofs.Schedule.EarliestLevel
import Timetable.Proofs.Schedule.Refusal

/-!
# What the schedule of a list looks like, without building it

A record says of each operation of a list in which slot it is. Two conditions on a record, neither
of which speaks of a build, leave no choice: conflicting operations are in strictly increasing slots,
and an operation that is not in the first slot conflicts with one in the slot just before its own.
A list has exactly one such record, and the schedule of the list holds what the record says. So facts
about schedules of lists are facts about records.

* `KeepsOrder`, `Supported`, `Levelled`: the two conditions, and both.
* `Levelled.le_of_keepsOrder`, `Levelled.unique`: a levelled record is below every other record of
  its list that keeps the order, and is the only levelled one.
* `Built.levelled`: the levels of a build make a levelled record.
* `Arranged`: slots that hold what a record says, and `Arranged.eq`: there is one list of them.
* `Schedule.RefusesNesting`: why the schedule of a list may be refused.
* `exists_levelled`, `Levelled.ofBundle`, `Levelled.ofBundle_eq`: every list has a levelled record,
  and its schedule is the one that holds what the record says.
-/

namespace Timetable

variable {ω : Type} [Operation ω]

/-! ### Records -/

/-- Of conflicting operations, the earlier one in the list is in the earlier slot. -/
def KeepsOrder (placed : List (Nat × ω)) : Prop :=
  placed.Pairwise fun e f => Conflict e.2 f.2 → e.1 < f.1

/-- No operation could be one slot earlier: the slot just before its own holds one that it conflicts
with. -/
def Supported (placed : List (Nat × ω)) : Prop :=
  ∀ e ∈ placed, ∀ d, e.1 = d + 1 → ∃ f ∈ placed, f.1 = d ∧ Conflict f.2 e.2

/-- The record keeps the order, and every operation is in the first slot or supported. -/
structure Levelled (placed : List (Nat × ω)) : Prop where
  keepsOrder : KeepsOrder placed
  supported : Supported placed

/-- One more operation, supported by those before it. -/
theorem Supported.concat {placed : List (Nat × ω)} (h : Supported placed) {x : Nat} {op : ω}
    (hop : ∀ d, x = d + 1 → ∃ f ∈ placed, f.1 = d ∧ Conflict f.2 op) :
    Supported (placed ++ [(x, op)]) := by
  intro e he d hd
  have hbefore : ∃ f ∈ placed, f.1 = d ∧ Conflict f.2 e.2 := by
    rcases List.mem_append.1 he with he | he
    · exact h e he d hd
    · rw [List.mem_singleton.1 he] at hd ⊢
      exact hop d hd
  obtain ⟨f, hf, hfd⟩ := hbefore
  exact ⟨f, List.mem_append_left _ hf, hfd⟩

theorem KeepsOrder.lt {placed : List (Nat × ω)} (h : KeepsOrder placed) {i j : Nat} (hij : i < j)
    {e f : Nat × ω} (hi : placed[i]? = some e) (hj : placed[j]? = some f)
    (hconf : Conflict e.2 f.2) : e.1 < f.1 := by
  obtain ⟨hilt, rfl⟩ := List.getElem?_eq_some_iff.1 hi
  obtain ⟨hjlt, rfl⟩ := List.getElem?_eq_some_iff.1 hj
  exact List.pairwise_iff_getElem.1 h i j hilt hjlt hij hconf

omit [Operation ω] in
/-- Records of one list have the same operation at each position. -/
theorem exists_getElem?_of_map_snd_eq {placed placed' : List (Nat × ω)}
    (h : placed.map Prod.snd = placed'.map Prod.snd) {i : Nat} {e : Nat × ω}
    (he : placed[i]? = some e) : ∃ f, placed'[i]? = some f ∧ f.2 = e.2 := by
  have hi : (placed'.map Prod.snd)[i]? = some e.2 := by
    rw [← h, List.getElem?_map, he]
    rfl
  rw [List.getElem?_map] at hi
  exact Option.map_eq_some_iff.1 hi

namespace Levelled

variable {placed placed' : List (Nat × ω)}

/-- What supports an operation stands before it in the list. -/
theorem exists_support (h : Levelled placed) {i d : Nat} {op : ω}
    (hi : placed[i]? = some (d + 1, op)) :
    ∃ j < i, ∃ a, placed[j]? = some (d, a) ∧ Conflict a op := by
  obtain ⟨⟨_, a⟩, ha, rfl, hconf⟩ := h.supported _ (List.mem_of_getElem? hi) d rfl
  obtain ⟨j, hj⟩ := List.mem_iff_getElem?.1 ha
  refine ⟨j, ?_, a, hj, hconf⟩
  rcases Nat.lt_trichotomy j i with hlt | heq | hgt
  · exact hlt
  · rw [heq, hi] at hj
    simp at hj
  · have hlt := h.keepsOrder.lt hgt hi hj hconf.symm
    dsimp only at hlt
    omega

/-- No record of the list that keeps the order has an operation in an earlier slot. -/
theorem le_of_keepsOrder (h : Levelled placed) (h' : KeepsOrder placed')
    (hops : placed.map Prod.snd = placed'.map Prod.snd) {i : Nat} {e f : Nat × ω}
    (he : placed[i]? = some e) (hf : placed'[i]? = some f) : e.1 ≤ f.1 := by
  obtain ⟨d, op⟩ := e
  induction d generalizing i op f with
  | zero => exact Nat.zero_le f.1
  | succ d ih =>
    obtain ⟨j, hji, a, ha, hconf⟩ := h.exists_support he
    obtain ⟨g, hg, hga⟩ := exists_getElem?_of_map_snd_eq hops ha
    obtain ⟨f', hf', hfop⟩ := exists_getElem?_of_map_snd_eq hops he
    obtain rfl : f' = f := Option.some.inj (hf'.symm.trans hf)
    have hle : d ≤ g.1 := ih hg a ha
    have hlt : g.1 < f'.1 := by
      apply h'.lt hji hg hf
      rw [hga, hfop]
      exact hconf
    show d + 1 ≤ f'.1
    omega

/-- Slots below `m` are enough for an order that is kept only if they are enough for the record. -/
theorem lt_of_keepsOrder (h : Levelled placed) (h' : KeepsOrder placed')
    (hops : placed.map Prod.snd = placed'.map Prod.snd) {m : Nat} (hlt : ∀ f ∈ placed', f.1 < m) :
    ∀ e ∈ placed, e.1 < m := by
  intro e he
  obtain ⟨i, hi⟩ := List.mem_iff_getElem?.1 he
  obtain ⟨f, hf, -⟩ := exists_getElem?_of_map_snd_eq hops hi
  have hle : e.1 ≤ f.1 := h.le_of_keepsOrder h' hops hi hf
  exact Nat.lt_of_le_of_lt hle (hlt f (List.mem_of_getElem? hf))

/-- A list has one levelled record. -/
theorem unique (h : Levelled placed) (h' : Levelled placed')
    (hops : placed.map Prod.snd = placed'.map Prod.snd) : placed = placed' := by
  refine List.ext_getElem? fun i => ?_
  cases he : placed[i]? with
  | none =>
    have hlen : placed.length = placed'.length := by
      simpa using congrArg List.length hops
    rw [List.getElem?_eq_none_iff] at he
    exact (List.getElem?_eq_none (hlen ▸ he)).symm
  | some e =>
    obtain ⟨f, hf, hfe⟩ := exists_getElem?_of_map_snd_eq hops he
    have hle := h.le_of_keepsOrder h'.keepsOrder hops he hf
    have hge := h'.le_of_keepsOrder h.keepsOrder hops.symm hf he
    rw [hf, Prod.ext (Nat.le_antisymm hle hge) hfe.symm]

/-- Another order of the record, if it keeps the order of what conflicts, is levelled too. -/
theorem of_mem_iff (h : Levelled placed) (hmem : ∀ e, e ∈ placed' ↔ e ∈ placed)
    (h' : KeepsOrder placed') : Levelled placed' where
  keepsOrder := h'
  supported e he d hd := by
    obtain ⟨f, hf, hfd⟩ := h.supported e ((hmem e).1 he) d hd
    exact ⟨f, (hmem f).2 hf, hfd⟩

end Levelled

/-! ### The record of a build -/

/-- The levels of a build are a levelled record. -/
theorem Built.levelled {ops : List ω} {levels : List Nat} {s : Schedule ω}
    (h : Built ops levels s) : Levelled (levels.zip ops) where
  keepsOrder := by
    refine List.pairwise_iff_getElem.2 fun i j hi hj hij hconf => ?_
    rw [List.length_zip] at hi hj
    rw [List.getElem_zip, List.getElem_zip] at hconf ⊢
    have hlast : ∀ k (hk : k < levels.length), IsGreatest {n | Chain ops n k} levels[k] := fun k hk =>
      h.isGreatest k _ (List.getElem?_eq_getElem hk)
    have hconfAt : ConflictAt ops i j :=
      ⟨ops[i], ops[j], List.getElem?_eq_getElem (by omega), List.getElem?_eq_getElem (by omega), hconf⟩
    exact (hlast j (by omega)).2 (.link (hlast i (by omega)).1 hij hconfAt)
  supported := by
    intro e he d hd
    obtain ⟨j, hj⟩ := List.mem_iff_getElem?.1 he
    obtain ⟨hlevel, hop⟩ := List.getElem?_zip_eq_some.1 hj
    rw [hd] at hlevel
    have hgreatest := h.isGreatest j (d + 1) hlevel
    obtain ⟨hchain, hle⟩ := hgreatest
    cases hchain with
    | @link _ i _ hchain hij hconf =>
      obtain ⟨a, b, ha, hb, hab⟩ := hconf
      rw [hop] at hb
      cases hb
      have hi : i < levels.length := h.length_eq ▸ (List.getElem?_eq_some_iff.1 ha).1
      have hget : levels[i]? = some levels[i] := List.getElem?_eq_getElem hi
      obtain ⟨hlongest, hbelow⟩ := h.isGreatest i _ hget
      -- The chain goes on with the longest one that leads to its last link but one.
      have hdle : d ≤ levels[i] := hbelow hchain
      have hlt : levels[i] + 1 ≤ d + 1 := hle (.link hlongest hij ⟨a, e.2, ha, hop, hab⟩)
      refine ⟨(levels[i], a), ?_, by dsimp only; omega, hab⟩
      exact List.mem_of_getElem? (List.getElem?_zip_eq_some.2 ⟨hget, ha⟩)

/-! ### Slots that hold what a record says -/

/-- The slots hold the operations of the record, each in its slot and in the order of the record, and
none of them is empty. -/
structure Arranged (placed : List (Nat × ω)) (slots : List (Slot ω)) : Prop where
  sound : ∀ slot ∈ slots, slot.Sound
  content : ∀ x, operationsAt slots x = landedIn placed x
  occupied : ∀ x < slots.length, ∃ op, (x, op) ∈ placed

/-- Sound slots are determined by how many they are and what they hold. -/
theorem slots_eq_of_operationsAt {slots slots' : List (Slot ω)} (h : ∀ slot ∈ slots, slot.Sound)
    (h' : ∀ slot ∈ slots', slot.Sound) (hlength : slots.length = slots'.length)
    (hops : ∀ x, operationsAt slots x = operationsAt slots' x) : slots = slots' :=
  List.ext_getElem hlength fun x hx hx' => getElem_eq_of_operationsAt h h' hx hx' (hops x)

namespace Arranged

variable {placed placed' : List (Nat × ω)} {slots slots' : List (Slot ω)}

theorem mem_operationsAt_iff (h : Arranged placed slots) {x : Nat} {op : ω} :
    op ∈ operationsAt slots x ↔ (x, op) ∈ placed := by
  rw [h.content, mem_landedIn]

theorem lt_length_iff (h : Arranged placed slots) {x : Nat} :
    x < slots.length ↔ ∃ op, (x, op) ∈ placed := by
  constructor
  · exact h.occupied x
  · intro hx
    obtain ⟨op, hop⟩ := hx
    exact lt_length_of_mem_operationsAt (h.mem_operationsAt_iff.2 hop)

theorem mem_indexedOperations_iff (h : Arranged placed slots) (e : Nat × ω) :
    e ∈ Schedule.indexedOperations slots ↔ e ∈ placed := by
  rw [Timetable.mem_indexedOperations_iff, h.mem_operationsAt_iff]

theorem mem_operations_iff (h : Arranged placed slots) {op : ω} :
    op ∈ slots.flatMap Slot.operations ↔ op ∈ placed.map Prod.snd := by
  rw [← map_snd_indexedOperations, List.mem_map, List.mem_map]
  simp only [h.mem_indexedOperations_iff]

/-- If nothing more is in the first record, the first slots are no more. -/
theorem length_le (h : Arranged placed slots) (h' : Arranged placed' slots')
    (hsub : ∀ e ∈ placed, e ∈ placed') : slots.length ≤ slots'.length := by
  refine Nat.le_of_not_lt fun hlt => ?_
  obtain ⟨op, hop⟩ := h.occupied _ hlt
  exact absurd (h'.lt_length_iff.2 ⟨op, hsub _ hop⟩) (Nat.lt_irrefl _)

/-- A record is held by one list of slots. -/
theorem eq (h : Arranged placed slots) (h' : Arranged placed slots') : slots = slots' := by
  apply slots_eq_of_operationsAt h.sound h'.sound
  · exact Nat.le_antisymm (h.length_le h' fun _ he => he) (h'.length_le h fun _ he => he)
  · exact fun x => (h.content x).trans (h'.content x).symm

end Arranged

theorem Built.arranged {ops : List ω} {levels : List Nat} {s : Schedule ω}
    (h : Built ops levels s) : Arranged (levels.zip ops) s.slots where
  sound := h.sound
  content := h.content
  occupied x hx := by
    obtain ⟨i, hi⟩ := List.mem_iff_getElem?.1 (h.occupied x hx)
    have hlt : i < ops.length := h.length_eq ▸ (List.getElem?_eq_some_iff.1 hi).1
    refine ⟨ops[i], List.mem_of_getElem? (i := i) (List.getElem?_zip_eq_some.2 ⟨hi, ?_⟩)⟩
    exact List.getElem?_eq_getElem hlt

/-! ### The schedule of a list -/

namespace Schedule

/-- The list has no schedule, for one of its operations nests in itself. -/
def RefusesNesting (ops : List ω) : Prop :=
  (∃ op ∈ ops, nestsInItself op = true) ∧ ofBundle (.ofList ops) .earliest = .error .cyclicNesting

/-- Where no resource is named twice, an operation that nests in itself is the only thing that the
check can find. -/
theorem refusesNesting {ops : List ω} (hnd : ∀ op ∈ ops, (resources op).Nodup)
    (hnests : ∃ op ∈ ops, nestsInItself op = true) : RefusesNesting ops := by
  refine ⟨hnests, ?_⟩
  rw [ofBundle, append, insert, Bundle.items_ofList]
  cases hcheck : checkItems (ops.map Item.operation) with
  | ok u =>
    obtain ⟨op, hop, hself⟩ := hnests
    have hfit := checkItems_eq_ok_iff.1 hcheck _ (List.mem_map_of_mem hop)
    rw [(checkOperation_eq_ok_iff.1 hfit).2] at hself
    cases hself
  | error e =>
    obtain ⟨before, item, after, heq, -, hunfit⟩ := checkItems_eq_error_iff.1 hcheck
    have hmem : item ∈ ops.map Item.operation := by
      rw [heq]
      exact List.mem_append_right _ List.mem_cons_self
    obtain ⟨op, hop, rfl⟩ := List.mem_map.1 hmem
    cases hunfit with
    | operation hunfit =>
      cases hunfit with
      | @repeats before after r hrs _ hr =>
        have hop := hnd op hop
        rw [hrs] at hop
        exact absurd rfl ((List.nodup_append.1 hop).2.2 r hr r List.mem_cons_self)
      | nests _ _ => rfl

theorem refusesNesting_or_fit {ops : List ω} (hnd : ∀ op ∈ ops, (resources op).Nodup) :
    RefusesNesting ops ∨ ∀ op ∈ ops, (resources op).Nodup ∧ nestsInItself op = false := by
  by_cases hnests : ∃ op ∈ ops, nestsInItself op = true
  · exact .inl (refusesNesting hnd hnests)
  · refine .inr fun op hop => ⟨hnd op hop, ?_⟩
    rw [← Bool.not_eq_true]
    exact fun hself => hnests ⟨op, hop, hself⟩

theorem ofBundle_of_insertItems {ops : List ω} {s : Schedule ω} {k : Nat}
    (hfit : ∀ op ∈ ops, checkOperation op = .ok ())
    (hrun : ({} : Schedule ω).insertItems 0 .earliest (ops.map .operation) = ⟨s, .ok k⟩) :
    ofBundle (.ofList ops) .earliest = .ok s := by
  have hcheck : checkItems (ops.map Item.operation) = .ok () := by
    rw [checkItems_eq_ok_iff]
    intro item hitem
    obtain ⟨op, hop, rfl⟩ := List.mem_map.1 hitem
    exact hfit op hop
  have happend : ({} : Schedule ω).append (.ofList ops) .earliest = ⟨s, .ok k⟩ := by
    rw [append, insert, Bundle.items_ofList, hcheck]
    exact hrun
  rw [ofBundle, happend]
  rfl

end Schedule

/-- Every list of operations that name no resource twice has a levelled record. -/
theorem exists_levelled {ops : List ω} (hnd : ∀ op ∈ ops, (resources op).Nodup) :
    ∃ placed, placed.map Prod.snd = ops ∧ Levelled placed := by
  obtain ⟨levels, k, s, -, hbuilt⟩ := Built.nil.run hnd
  exact ⟨levels.zip ops, List.map_snd_zip (Nat.le_of_eq hbuilt.length_eq.symm), hbuilt.levelled⟩

/-- The schedule of a list holds what the levelled record of the list says. -/
theorem Levelled.ofBundle {ops : List ω} {placed : List (Nat × ω)} (h : Levelled placed)
    (hops : placed.map Prod.snd = ops)
    (hfit : ∀ op ∈ ops, (resources op).Nodup ∧ nestsInItself op = false) :
    ∃ s, Schedule.ofBundle (.ofList ops) .earliest = .ok s ∧ s.acceptance = none ∧
      Arranged placed s.slots := by
  obtain ⟨levels, k, s, hrun, hbuilt⟩ := Built.nil.run fun op hop => (hfit op hop).1
  have hsame : levels.zip ops = placed := by
    apply hbuilt.levelled.unique h
    rw [hops]
    exact List.map_snd_zip (Nat.le_of_eq hbuilt.length_eq.symm)
  refine ⟨s, ?_, hbuilt.acceptance, ?_⟩
  · apply Schedule.ofBundle_of_insertItems _ hrun
    exact fun op hop => Schedule.checkOperation_eq_ok_iff.2 (hfit op hop)
  · rw [← hsame]
    exact hbuilt.arranged

/-- A schedule that holds what the levelled record of a list says is the schedule of the list. -/
theorem Levelled.ofBundle_eq {ops : List ω} {placed : List (Nat × ω)} (h : Levelled placed)
    (hops : placed.map Prod.snd = ops)
    (hfit : ∀ op ∈ ops, (resources op).Nodup ∧ nestsInItself op = false) {s : Schedule ω}
    (hrule : s.acceptance = none) (harranged : Arranged placed s.slots) :
    Schedule.ofBundle (.ofList ops) .earliest = .ok s := by
  obtain ⟨built, hbuilt, hrule', harranged'⟩ := h.ofBundle hops hfit
  have hsame : built = s := by
    cases s
    cases built
    cases hrule
    cases hrule'
    cases harranged'.eq harranged
    rfl
  rw [hbuilt, hsame]

end Timetable
