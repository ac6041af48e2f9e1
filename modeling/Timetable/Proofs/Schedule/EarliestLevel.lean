import Timetable.Proofs.Schedule.Insertion
import Timetable.Instruction

/-!
# Building a schedule as early as possible

A schedule that is built from a list of operations, each as early as it can go, has each operation
in the slot whose index is the length of the longest chain of conflicts that leads to it. So it has
no more slots than any assignment of slots that keeps conflicting operations in order.

* `Chain`: chains of conflicts within a list.
* `Assigns`: assignments of slots that keep conflicting operations in order.
* `Built`: what is known of the schedule while it is being built, and `Built.step`.
* `ofBundle_earliest`: the schedule of a list.
-/

namespace Timetable

variable {ω : Type} [Operation ω]

def ConflictAt (ops : List ω) (i j : Nat) : Prop :=
  ∃ a b, ops[i]? = some a ∧ ops[j]? = some b ∧ Conflict a b

/-- A chain of so many links that ends at a position: each link goes from a position to a later one
whose operation conflicts with the operation before. -/
inductive Chain (ops : List ω) : Nat → Nat → Prop where
  | start {j : Nat} (hj : j < ops.length) : Chain ops 0 j
  | link {n i j : Nat} (chain : Chain ops n i) (hij : i < j) (h : ConflictAt ops i j) :
    Chain ops (n + 1) j

/-- The positions of the list are assigned slots below `m`, those of conflicting operations in
strictly increasing slots. -/
structure Assigns (ops : List ω) (slotOf : Nat → Nat) (m : Nat) : Prop where
  lt : ∀ j < ops.length, slotOf j < m
  increasing : ∀ i j, i < j → ConflictAt ops i j → slotOf i < slotOf j

/-- No assignment puts a position below the links of a chain that leads to it. -/
theorem Assigns.links_le {ops : List ω} {slotOf : Nat → Nat} {m : Nat} (h : Assigns ops slotOf m)
    {n j : Nat} (hc : Chain ops n j) : n ≤ slotOf j := by
  induction hc with
  | start _ => exact Nat.zero_le _
  | link _ hij hconf ih => exact Nat.lt_of_le_of_lt ih (h.increasing _ _ hij hconf)

/-! ### Longer lists -/

theorem conflictAt_append {ops : List ω} {op : ω} {i j : Nat} (hi : i < ops.length)
    (hj : j < ops.length) : ConflictAt (ops ++ [op]) i j ↔ ConflictAt ops i j := by
  rw [ConflictAt, ConflictAt, List.getElem?_append_left hi, List.getElem?_append_left hj]

/-- A chain that ends within a list does not see what comes after the list. -/
theorem chain_append_iff {ops : List ω} {op : ω} {n j : Nat} (hj : j < ops.length) :
    Chain (ops ++ [op]) n j ↔ Chain ops n j := by
  constructor
  · intro hc
    induction hc with
    | start _ => exact .start hj
    | link _ hij hconf ih =>
      have hi := Nat.lt_trans hij hj
      exact .link (ih hi) hij ((conflictAt_append hi hj).1 hconf)
  · intro hc
    induction hc with
    | start _ =>
      refine .start ?_
      rw [List.length_append]
      exact Nat.lt_add_right _ hj
    | link _ hij hconf ih =>
      have hi := Nat.lt_trans hij hj
      exact .link (ih hi) hij ((conflictAt_append hi hj).2 hconf)

/-! ### While the schedule is being built -/

/-- The schedule `s` is what has been built of a list: the operation at each position is in the slot
of its level, every slot is the level of some position, and a level is the greatest number of links
of a chain that leads to its position. -/
structure Built (ops : List ω) (levels : List Nat) (s : Schedule ω) : Prop where
  sound : s.Sound
  acceptance : s.acceptance = none
  length_eq : levels.length = ops.length
  content : ∀ x, operationsAt s.slots x = landedIn (levels.zip ops) x
  occupied : ∀ x < s.length, x ∈ levels
  isGreatest : ∀ j d, levels[j]? = some d → IsGreatest {n | Chain ops n j} d

namespace Built

variable {ops : List ω} {levels : List Nat} {s : Schedule ω}

theorem nil : Built ([] : List ω) [] {} where
  sound := by simp [Schedule.Sound]
  acceptance := rfl
  length_eq := rfl
  content x := by simp [operationsAt]
  occupied x hx := absurd hx (Nat.not_lt_zero x)
  isGreatest j d h := by simp at h

/-- The operations of a slot are those whose positions have it as their level. -/
theorem mem_operationsAt_iff (h : Built ops levels s) {x : Nat} {a : ω} :
    a ∈ operationsAt s.slots x ↔ ∃ i : Nat, levels[i]? = some x ∧ ops[i]? = some a := by
  rw [h.content, mem_landedIn, List.mem_iff_getElem?]
  simp only [List.getElem?_zip_eq_some]

theorem level_lt (h : Built ops levels s) {x : Nat} (hx : x ∈ levels) : x < s.length := by
  obtain ⟨i, hi⟩ := List.mem_iff_getElem?.1 hx
  have hlt : i < ops.length := h.length_eq ▸ (List.getElem?_eq_some_iff.1 hi).1
  exact lt_length_of_mem_operationsAt
    (h.mem_operationsAt_iff.2 ⟨i, hi, List.getElem?_eq_getElem hlt⟩)

/-- An operation may cross the slot of a level when it conflicts with no operation of that level. -/
theorem canCross_iff (h : Built ops levels s) {op : ω} {x : Nat} :
    s.CanCross op x ↔
      ∀ (i : Nat) a, levels[i]? = some x → ops[i]? = some a → ¬Conflict a op := by
  rw [Schedule.canCross_iff h.sound]
  constructor
  · intro hfree i a hi ha
    exact hfree a (h.mem_operationsAt_iff.2 ⟨i, hi, ha⟩)
  · intro hfree a ha
    obtain ⟨i, hi, hai⟩ := h.mem_operationsAt_iff.1 ha
    exact hfree i a hi hai

/-- Without an acceptance rule a slot that can be crossed takes the operation. -/
theorem fits_of_canCross (h : Built ops levels s) {op : ω} {x : Nat} (hcross : s.CanCross op x) :
    s.fits x op = true := by
  rw [Schedule.fits]
  cases hslot : s.slots[x]? with
  | none => rfl
  | some slot =>
    have hback := hcross slot hslot
    rw [Schedule.holdsBack, Bool.or_eq_false_iff] at hback
    simp [hback.1, Schedule.accepts, h.acceptance]

/-- The level of the next operation: it conflicts with nothing from there on, and with something in
the slot just before. -/
theorem earliestSlot_spec (h : Built ops levels s) (op : ω) :
    let d := s.earliestSlot op s.length s.length
    d ≤ s.length ∧ (∀ x, d ≤ x → x < s.length → s.CanCross op x) ∧
      (∀ x, d = x + 1 → ¬s.CanCross op x) := by
  intro d
  obtain ⟨hmem, hle⟩ := s.isLeast_earliestSlot op (Nat.le_refl s.length) (Nat.le_refl _)
  have hcross : ∀ x, d ≤ x → x < s.length → s.CanCross op x := by
    rcases hmem with hd | ⟨-, -, hcross⟩
    · intro x hx hlt
      exact absurd hlt (Nat.not_lt.2 (hd ▸ hx))
    · exact hcross
  have hdle : d ≤ s.length := hle (.inl rfl)
  refine ⟨hdle, hcross, fun x hx hfree => ?_⟩
  have hstop : s.IsStop op s.length x := by
    refine ⟨by omega, h.fits_of_canCross hfree, fun i hxi hi => ?_⟩
    rcases Nat.eq_or_lt_of_le hxi with rfl | hlt
    · exact hfree
    · exact hcross i (by omega) hi
  have hdx : d ≤ x := hle (.inr hstop)
  omega

/-- The next operation goes to the level of the longest chain that leads to it. -/
theorem isGreatest_earliestSlot (h : Built ops levels s) (op : ω) :
    IsGreatest {n | Chain (ops ++ [op]) n ops.length} (s.earliestSlot op s.length s.length) := by
  obtain ⟨hdle, hcross, hlast⟩ := h.earliestSlot_spec op
  generalize s.earliestSlot op s.length s.length = d at hdle hcross hlast
  have hself : (ops ++ [op])[ops.length]? = some op := by simp
  constructor
  · cases d with
    | zero => exact .start (by simp)
    | succ x =>
      have hnot := hlast x rfl
      rw [h.canCross_iff] at hnot
      push Not at hnot
      obtain ⟨i, a, hi, ha, hconf⟩ := hnot
      have hlt := (List.getElem?_eq_some_iff.1 ha).1
      refine .link ((chain_append_iff hlt).2 (h.isGreatest i x hi).1) hlt ⟨a, op, ?_, hself, hconf⟩
      rw [List.getElem?_append_left hlt, ha]
  · intro n hn
    cases hn with
    | start _ => exact Nat.zero_le d
    | @link m i _ hchain hlt hconf =>
      obtain ⟨a, b, ha, hb, hab⟩ := hconf
      rw [List.getElem?_append_left hlt] at ha
      rw [hself] at hb
      cases hb
      have hi : i < levels.length := h.length_eq.symm ▸ hlt
      have hlevel : levels[i]? = some levels[i] := List.getElem?_eq_getElem hi
      have hm : m ≤ levels[i] := (h.isGreatest i _ hlevel).2 ((chain_append_iff hlt).1 hchain)
      -- The slot of the last link holds the operation back, so the operation stays behind it.
      have hlt' : levels[i] < d := by
        refine Nat.lt_of_not_le fun hle => ?_
        have hfree := hcross _ hle (h.level_lt (List.getElem_mem hi))
        exact h.canCross_iff.1 hfree i a hlevel ha hab
      omega

/-- One more operation is put in. -/
theorem step (h : Built ops levels s) {op : ω} (hnd : (resources op).Nodup) :
    ∃ d s', Built (ops ++ [op]) (levels ++ [d]) s' ∧
      ∀ items, s.insertItems s.length .earliest (.operation op :: items)
        = s'.insertItems s'.length .earliest items := by
  obtain ⟨hdle, hcross, -⟩ := h.earliestSlot_spec op
  have hgreatest := h.isGreatest_earliestSlot op
  have hpick : s.pickSlot s.length op .earliest
      = (s.earliestSlot op s.length s.length, s) := by
    have hend : s.fits s.length op = true := by
      rw [Schedule.fits, Schedule.length, List.getElem?_eq_none (Nat.le_refl _)]
    rw [Schedule.pickSlot, if_pos hend]
  generalize s.earliestSlot op s.length s.length = d at hdle hcross hgreatest hpick
  have hfree : s.Untouched op d := by
    rcases Nat.eq_or_lt_of_le hdle with rfl | hlt
    · intro a ha
      exact absurd (lt_length_of_mem_operationsAt ha) (Nat.lt_irrefl _)
    · exact Schedule.untouched_of_canCross h.sound (hcross d (Nat.le_refl d) hlt)
  obtain ⟨s', hpush, hrule, hlen, hsound, hlayout⟩ := Schedule.exists_landing h.sound hnd hfree
  refine ⟨d, s', ⟨hsound, hrule.trans h.acceptance, ?_, fun x => ?_, fun x hx => ?_, ?_⟩,
    fun items => ?_⟩
  · rw [List.length_append, List.length_append, h.length_eq]
    rfl
  · rw [hlayout.content_of_id, h.content, List.zip_append h.length_eq, landedIn_append]
    rfl
  · rcases Nat.lt_or_ge x s.length with hold | hnew
    · exact List.mem_append_left _ (h.occupied x hold)
    · rw [show x = d by omega]
      exact List.mem_append_right _ (List.mem_singleton_self d)
  · intro j e hj
    rcases Slot.getElem?_snoc_eq_some.1 hj with hj | ⟨rfl, rfl⟩
    · have hlt : j < ops.length := h.length_eq ▸ (List.getElem?_eq_some_iff.1 hj).1
      simpa only [chain_append_iff hlt] using h.isGreatest j e hj
    · rw [h.length_eq]
      exact hgreatest
  · rw [Schedule.insertItems, hpick]
    dsimp only
    rw [hpush, show max s.length (d + 1) = s'.length from hlen.symm]
    rfl

/-- Operations that name no resource twice are all put in. -/
theorem run (h : Built ops levels s) {rest : List ω} (hnd : ∀ op ∈ rest, (resources op).Nodup) :
    ∃ levels' k s', s.insertItems s.length .earliest (rest.map .operation) = ⟨s', .ok k⟩ ∧
      Built (ops ++ rest) levels' s' := by
  induction rest generalizing ops levels s with
  | nil => exact ⟨levels, s.length, s, rfl, by rwa [List.append_nil]⟩
  | cons op rest ih =>
    rw [List.forall_mem_cons] at hnd
    obtain ⟨d, mid, hmid, heq⟩ := h.step hnd.1
    obtain ⟨levels', k, s', hrun, hbuilt⟩ := ih hmid hnd.2
    refine ⟨levels', k, s', ?_, ?_⟩
    · rw [List.map_cons, heq, hrun]
    · rwa [List.append_assoc, List.singleton_append] at hbuilt

/-- The levels are an assignment with as many slots as the schedule has, and no assignment has
fewer. -/
theorem isLeast_length (h : Built ops levels s) :
    IsLeast {m | ∃ slotOf, Assigns ops slotOf m} s.length := by
  have hget : ∀ {j}, j < ops.length → levels[j]? = some (levels.getD j 0) := by
    intro j hj
    rw [List.getD_eq_getElem?_getD, List.getElem?_eq_getElem (h.length_eq.symm ▸ hj)]
    rfl
  constructor
  · refine ⟨fun j => levels.getD j 0, fun j hj => ?_, fun i j hij hconf => ?_⟩
    · exact h.level_lt (List.mem_of_getElem? (hget hj))
    · obtain ⟨a, b, ha, hb, hab⟩ := hconf
      have hi := (List.getElem?_eq_some_iff.1 ha).1
      have hj := (List.getElem?_eq_some_iff.1 hb).1
      have hchain := (h.isGreatest i _ (hget hi)).1
      exact (h.isGreatest j _ (hget hj)).2 (.link hchain hij ⟨a, b, ha, hb, hab⟩)
  · intro m hx
    obtain ⟨slotOf, hassign⟩ := hx
    rcases Nat.eq_zero_or_pos s.length with hzero | hpos
    · rw [hzero]
      exact Nat.zero_le m
    · obtain ⟨j, hj⟩ := List.mem_iff_getElem?.1 (h.occupied (s.length - 1) (by omega))
      have hjlt : j < ops.length := h.length_eq ▸ (List.getElem?_eq_some_iff.1 hj).1
      have hle := hassign.links_le (h.isGreatest j _ hj).1
      have hlt := hassign.lt j hjlt
      omega

end Built

/-! ### The schedule of a list -/

/-- **As early as possible.** The schedule of a list of operations has each of them in the slot
whose index is the greatest number of links of a chain of conflicts that leads to it, and has as few
slots as any assignment that keeps conflicting operations in order. -/
theorem ofBundle_earliest {ops : List ω}
    (h : ∀ op ∈ ops, (resources op).Nodup ∧ nestsInItself op = false) :
    ∃ (s : Schedule ω) (levels : List Nat),
      Schedule.ofBundle (.ofList ops) .earliest = .ok s ∧ levels.length = ops.length ∧
      (∀ x, operationsAt s.slots x = landedIn (levels.zip ops) x) ∧
      (∀ j d, levels[j]? = some d → IsGreatest {n | Chain ops n j} d) ∧
      IsLeast {m | ∃ slotOf, Assigns ops slotOf m} s.length := by
  have hcheck : Schedule.checkItems (Bundle.ofList ops).items = .ok () := by
    rw [Bundle.items_ofList, Schedule.checkItems_eq_ok_iff]
    intro item hitem
    obtain ⟨op, hop, rfl⟩ := List.mem_map.1 hitem
    exact Schedule.checkOperation_eq_ok_iff.2 (h op hop)
  obtain ⟨levels, k, s, hrun, hbuilt⟩ := Built.nil.run fun op hop => (h op hop).1
  refine ⟨s, levels, ?_, hbuilt.length_eq, hbuilt.content, hbuilt.isGreatest,
    hbuilt.isLeast_length⟩
  rw [Schedule.ofBundle, Schedule.append, Schedule.insert, hcheck, Bundle.items_ofList]
  dsimp only
  rw [Nat.min_self, hrun]
  rfl

/-- A measurement on one place, an instruction on another place that waits for its outcome, and one
that could go first but for that instruction. -/
theorem ofBundle_earliest_three :
    let m : Key := ⟨"m", by decide⟩
    let ops : List Instruction :=
      [{ name := "measure", resources := [.line 0], writes := SortedSet.ofList [m] },
        { name := "x", resources := [.line 1], reads := SortedSet.ofList [m] },
        { name := "cz", resources := [.line 1, .line 2] }]
    (∀ op ∈ ops, (resources op).Nodup ∧ nestsInItself op = false) ∧
      ∃ (s : Schedule Instruction) (levels : List Nat),
        Schedule.ofBundle (.ofList ops) .earliest = .ok s ∧ levels.length = ops.length ∧
        (∀ x, operationsAt s.slots x = landedIn (levels.zip ops) x) ∧
        (∀ j d, levels[j]? = some d → IsGreatest {n | Chain ops n j} d) ∧
        IsLeast {m | ∃ slotOf, Assigns ops slotOf m} s.length := by
  intro m ops
  have h : ∀ op ∈ ops, (resources op).Nodup ∧ nestsInItself op = false := by decide
  exact ⟨h, ofBundle_earliest h⟩

end Timetable
