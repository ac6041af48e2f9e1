import Timetable.Proofs.Schedule.EarliestStep
import Timetable.Instruction
import Mathlib.Order.WellFounded

/-!
# As early as possible, and the order on keys

When operations go in as early as they can, no reader of a key gets in front of a writer that comes
before it in the bundle, or that stood before the place of insertion, and no writer in front of such
a reader. But the two may end in one slot. This happens when a slot at the place of insertion or
later refuses the second operation, so that it goes into the slot before the cursor without a look at
the keys there. An operation that every such slot takes is always behind what it depends on.

* `TurnedAway`: an operation has been refused by a slot that now stands behind it.
* `EarliestRun`: what one operation after another does, and `EarliestRun.trans`.
* `Schedule.exists_earliestRun`: bare operations that pass their checks go in by such a run.
* `KeysInOrder`: the order on keys, as it ought to be.
* `insert_earliest_keys`: the order that is kept.
* `insert_earliest_keys_in_one_slot`: a writer and its reader in one slot.
-/

namespace Timetable

variable {ω : Type} [Operation ω]

/-- Some old slot at the cursor `k` or later does not take the operation, and stands behind it. -/
def TurnedAway (s : Schedule ω) (k : Nat) (moved : Nat → Nat) (e : Nat × ω) : Prop :=
  ∃ i, k ≤ i ∧ e.1 < moved i ∧ s.fits i e.2 = false

/-- Operations go in as early as they can, one after the other. Of two that share a key the second
one ends in a later slot, or in the same slot after it has been turned away. -/
structure EarliestRun (s : Schedule ω) (k : Nat) (moved : Nat → Nat) (landed : List (Nat × ω))
    (s' : Schedule ω) (k' : Nat) : Prop extends Insertion .earliest s k moved landed s' k' where
  /-- From the cursor on, the slots are old ones that were at the cursor or later. -/
  tail : ∀ j, k' ≤ j → ∃ i, k ≤ i ∧ moved i = j ∧ s'.slots[j]? = s.slots[i]?
  /-- No slot moves further than the cursor. -/
  moved_le : ∀ i, moved i + k ≤ i + k'
  keys_ordered : landed.Pairwise fun a b =>
    SharesKey a.2 b.2 → a.1 < b.1 ∨ a.1 = b.1 ∧ TurnedAway s k moved b
  keys_behind : ∀ e ∈ landed, ∀ i < k, ∀ op ∈ operationsAt s.slots i,
    SharesKey op e.2 → i < e.1 ∨ i = e.1 ∧ TurnedAway s k moved e

theorem EarliestStep.run {s s' : Schedule ω} {k p : Nat} {op : ω} {moved : Nat → Nat}
    (h : EarliestStep s k op moved p s') :
    EarliestRun s k moved [(p, op)] s' (max k (p + 1)) where
  toInsertion := h.toInsertion
  tail := h.tail
  moved_le i := by
    rcases h.opens with ⟨rfl, rfl, -, -⟩ | ⟨rfl, -, -⟩
    · rw [Layout.skip]
      split <;> omega
    · rw [id]
      omega
  keys_ordered := List.pairwise_singleton _ _
  keys_behind e he i hi a ha hkey := by
    rw [List.mem_singleton.1 he] at hkey ⊢
    refine (h.keys i hi a ha hkey).imp_right ?_
    intro hsame
    obtain ⟨hip, hbefore, hrefused⟩ := hsame
    exact ⟨hip, k, Nat.le_refl k, hbefore, hrefused⟩

namespace EarliestRun

variable {s mid s' : Schedule ω} {k kmid k' : Nat} {moved moved' : Nat → Nat}
variable {landed landed' : List (Nat × ω)}

theorem refl (hs : s.Sound) (hk : k ≤ s.length) : EarliestRun s k id [] s k where
  toInsertion := Insertion.refl hs hk
  tail j hj := ⟨j, hj, rfl, rfl⟩
  moved_le i := Nat.le_refl (i + k)
  keys_ordered := List.Pairwise.nil
  keys_behind := by simp

/-- What has been turned away stays so while later operations go in: they open slots behind it. -/
theorem turnedAway_left (h' : EarliestRun mid kmid moved' landed' s' k') {e : Nat × ω}
    (he : TurnedAway s k moved e) : TurnedAway s k (moved' ∘ moved) e := by
  obtain ⟨i, hi, hlt, hrefused⟩ := he
  refine ⟨i, hi, Nat.lt_of_lt_of_le hlt ?_, hrefused⟩
  exact h'.layout.strictMono.le_apply

/-- The slot that turns a later operation away was there from the beginning. -/
theorem turnedAway_right (h : EarliestRun s k moved landed mid kmid) {e : Nat × ω}
    (he : TurnedAway mid kmid moved' e) : TurnedAway s k (moved' ∘ moved) e := by
  obtain ⟨j, hj, hlt, hrefused⟩ := he
  obtain ⟨i, hi, rfl, hslot⟩ := h.tail j hj
  exact ⟨i, hi, hlt, (Schedule.fits_congr h.acceptance hslot e.2).symm.trans hrefused⟩

/-- Runs after each other. -/
theorem trans (h : EarliestRun s k moved landed mid kmid)
    (h' : EarliestRun mid kmid moved' landed' s' k') :
    EarliestRun s k (moved' ∘ moved) (landed ++ landed') s' k' where
  toInsertion := h.toInsertion.trans h'.toInsertion id
  tail j hj := by
    obtain ⟨i', hi', rfl, hslot'⟩ := h'.tail j hj
    obtain ⟨i, hi, rfl, hslot⟩ := h.tail i' hi'
    exact ⟨i, hi, rfl, hslot'.trans hslot⟩
  moved_le i := by
    have hfirst := h.moved_le i
    have hsecond := h'.moved_le (moved i)
    rw [Function.comp_apply]
    omega
  keys_ordered := by
    refine List.pairwise_append.2 ⟨?_, ?_, fun a ha b hb hkey => ?_⟩
    · refine h.keys_ordered.imp fun {a b} hab hkey => ?_
      exact (hab hkey).imp_right fun hsame => ⟨hsame.1, h'.turnedAway_left hsame.2⟩
    · refine h'.keys_ordered.imp fun {a b} hab hkey => ?_
      exact (hab hkey).imp_right fun hsame => ⟨hsame.1, h.turnedAway_right hsame.2⟩
    · -- What has landed stands before the cursor of the later run.
      have hbehind := h'.keys_behind b hb a.1 (h.landed_lt a ha) a.2 (h.layout.mem_of_landed ha) hkey
      exact hbehind.imp_right fun hsame => ⟨hsame.1, h.turnedAway_right hsame.2⟩
  keys_behind e he i hi op hop hkey := by
    rcases List.mem_append.1 he with he | he
    · have hbehind := h.keys_behind e he i hi op hop hkey
      exact hbehind.imp_right fun hsame => ⟨hsame.1, h'.turnedAway_left hsame.2⟩
    · have hop' := h.layout.mem_of_moved hop
      rw [h.fixed i hi] at hop'
      have hbehind := h'.keys_behind e he i (Nat.lt_of_lt_of_le hi h.le_cursor) op hop' hkey
      exact hbehind.imp_right fun hsame => ⟨hsame.1, h.turnedAway_right hsame.2⟩

end EarliestRun

/-- Steps after each other are a run. -/
theorem EarliestSteps.run {s s' : Schedule ω} {k k' : Nat} {moved : Nat → Nat}
    {landed : List (Nat × ω)} (h : EarliestSteps s k moved landed s' k') :
    EarliestRun s k moved landed s' k' := by
  induction h with
  | refl hs hk => exact EarliestRun.refl hs hk
  | step first _ ih => exact first.run.trans ih

namespace Schedule

/-- Bare operations that pass their checks go in by such a run. -/
theorem exists_earliestRun {items : List (Item ω)} {s : Schedule ω} (hs : s.Sound) {k : Nat}
    (hk : k ≤ s.length) (hbare : ∀ slot, Item.slot slot ∉ items)
    (hcheck : ∀ item ∈ items, checkItem item = .ok ()) :
    ∃ moved landed k', (s.insertItems k .earliest items).answer = .ok k' ∧
      landed.map Prod.snd = items.flatMap Item.operations ∧
      EarliestRun s k moved landed (s.insertItems k .earliest items).left k' := by
  obtain ⟨moved, landed, k', hans, hops, hsteps⟩ := exists_earliestSteps hs hk hbare hcheck
  exact ⟨moved, landed, k', hans, hops, hsteps.run⟩

end Schedule

/-! ### The order on keys -/

/-- Of two inserted operations that share a key the second one is in the later slot, and an inserted
operation is behind those that share a key with it and stood before the index. -/
structure KeysInOrder (s : Schedule ω) (index : Nat) (moved : Nat → Nat)
    (landed : List (Nat × ω)) : Prop where
  ordered : landed.Pairwise fun a b => SharesKey a.2 b.2 → a.1 < b.1
  behind : ∀ e ∈ landed, ∀ i < min index s.length, ∀ op ∈ operationsAt s.slots i,
    SharesKey op e.2 → moved i < e.1

/-- The same, but for operations that have been turned away: these may share a slot with what they
depend on. -/
structure KeysAlmostInOrder (s : Schedule ω) (index : Nat) (moved : Nat → Nat)
    (landed : List (Nat × ω)) : Prop where
  ordered : landed.Pairwise fun a b => SharesKey a.2 b.2 →
    a.1 < b.1 ∨ a.1 = b.1 ∧ TurnedAway s (min index s.length) moved b
  behind : ∀ e ∈ landed, ∀ i < min index s.length, ∀ op ∈ operationsAt s.slots i,
    SharesKey op e.2 → moved i < e.1 ∨ moved i = e.1 ∧ TurnedAway s (min index s.length) moved e

/-- Where the slots at the index and later take every operation, none is turned away. -/
theorem KeysAlmostInOrder.keysInOrder {s : Schedule ω} {index : Nat} {moved : Nat → Nat}
    {landed : List (Nat × ω)} (h : KeysAlmostInOrder s index moved landed)
    (htake : ∀ op ∈ landed.map Prod.snd, ∀ i, min index s.length ≤ i → s.fits i op = true) :
    KeysInOrder s index moved landed := by
  have hnot : ∀ e ∈ landed, ¬TurnedAway s (min index s.length) moved e := by
    intro e he haway
    obtain ⟨i, hi, -, hrefused⟩ := haway
    rw [htake e.2 (List.mem_map_of_mem he) i hi] at hrefused
    cases hrefused
  constructor
  · refine h.ordered.imp_of_mem fun {a b} _ hb hab hkey => ?_
    exact (hab hkey).resolve_right fun hsame => hnot b hb hsame.2
  · intro e he i hi op hop hkey
    exact (h.behind e he i hi op hop hkey).resolve_right fun hsame => hnot e he hsame.2

/-- **As early as possible keeps the order on keys, except within a slot.** Bare operations that are
inserted as early as they can go are never in front of what they depend on. They may be in one slot
with it when a slot at the index or later has turned them away, and are behind it otherwise. -/
theorem insert_earliest_keys {s : Schedule ω} (hs : s.Sound) {bundle : Bundle ω}
    (hbare : ∀ slot, Item.slot slot ∉ bundle.items) (index : Nat) {next : Nat}
    (h : (s.insert index bundle .earliest).answer = .ok next) :
    ∃ moved landed, Layout s.slots moved landed (s.insert index bundle .earliest).left.slots ∧
      landed.map Prod.snd = bundle.operations ∧ KeysAlmostInOrder s index moved landed ∧
      ((∀ op ∈ bundle.operations, ∀ i, min index s.length ≤ i → s.fits i op = true) →
        KeysInOrder s index moved landed) := by
  rw [Schedule.insert] at h ⊢
  split at h
  · cases h
  · rename_i hcheck
    have hk : min index s.length ≤ s.length := Nat.min_le_right _ _
    obtain ⟨moved, landed, k', -, hops, hrun⟩ :=
      Schedule.exists_earliestRun hs hk hbare (Schedule.checkItems_eq_ok_iff.1 hcheck)
    have halmost : KeysAlmostInOrder s index moved landed := by
      refine ⟨hrun.keys_ordered, fun e he i hi op hop hkey => ?_⟩
      rw [hrun.fixed i hi]
      exact hrun.keys_behind e he i hi op hop hkey
    refine ⟨moved, landed, hrun.layout, hops, halmost, fun htake => ?_⟩
    exact halmost.keysInOrder (hops ▸ htake)

/-- A measurement that stands before the end, and an instruction that waits for its outcome and for
nothing else. -/
theorem insert_earliest_keys_appended :
    let m : Key := ⟨"m", by decide⟩
    let measure : Instruction :=
      { name := "measure", resources := [.line 0], writes := SortedSet.ofList [m] }
    let x : Instruction :=
      { name := "x", resources := [.line 1], reads := SortedSet.ofList [m] }
    let slot : Slot Instruction := ⟨[measure], SortedMap.insert ∅ (.line 0) 0⟩
    let bundle : Bundle Instruction := .sequence [.operation x]
    let s := Schedule.ofSlots [slot]
    (s.Sound ∧ (∀ slot, Item.slot slot ∉ bundle.items) ∧
      (s.insert 1 bundle .earliest).answer = .ok 2) ∧
    ∃ moved landed, Layout s.slots moved landed (s.insert 1 bundle .earliest).left.slots ∧
      landed.map Prod.snd = bundle.operations ∧ KeysAlmostInOrder s 1 moved landed ∧
      ((∀ op ∈ bundle.operations, ∀ i, min 1 s.length ≤ i → s.fits i op = true) →
        KeysInOrder s 1 moved landed) := by
  intro m measure x slot bundle s
  have hslot : slot.Sound := Slot.Sound.ofOperations (rfl : Slot.ofOperations [measure] = .ok slot)
  have hs : s.Sound := by
    show ∀ t ∈ [slot], t.Sound
    simp [hslot]
  have hbare : ∀ t, Item.slot t ∉ bundle.items := by
    show ∀ t, Item.slot t ∉ [Item.operation x]
    simp
  have hok : (s.insert 1 bundle .earliest).answer = .ok 2 := by decide +kernel
  exact ⟨⟨hs, hbare, hok⟩, insert_earliest_keys hs hbare 1 hok⟩

/-- An instruction ends in the slot of the measurement it waits for. The slot at the index has its
resource in use, and the slot before the cursor, where it is put instead, is the one that has been
made for the measurement. -/
theorem insert_earliest_keys_in_one_slot :
    let m : Key := ⟨"m", by decide⟩
    let h : Instruction := { name := "h", resources := [.line 0, .line 1] }
    let measure : Instruction :=
      { name := "measure", resources := [.line 0], writes := SortedSet.ofList [m] }
    let x : Instruction :=
      { name := "x", resources := [.line 1], reads := SortedSet.ofList [m] }
    let slot : Slot Instruction :=
      ⟨[h], SortedMap.insert (SortedMap.insert ∅ (.line 0) 0) (.line 1) 0⟩
    let bundle : Bundle Instruction := .sequence [.operation measure, .operation x]
    let s := Schedule.ofSlots [slot]
    s.Sound ∧ (s.insert 0 bundle .earliest).answer = .ok 1 ∧
      ¬∃ moved landed, Layout s.slots moved landed (s.insert 0 bundle .earliest).left.slots ∧
        landed.map Prod.snd = bundle.operations ∧ KeysInOrder s 0 moved landed := by
  intro m h measure x slot bundle s
  have hslot : slot.Sound := Slot.Sound.ofOperations (rfl : Slot.ofOperations [h] = .ok slot)
  have hs : s.Sound := by
    show ∀ t ∈ [slot], t.Sound
    simp [hslot]
  refine ⟨hs, by decide +kernel, ?_⟩
  rintro ⟨moved, landed, hlayout, hops, hkeys⟩
  have hops : landed.map Prod.snd = [measure, x] := hops
  obtain ⟨a, rest, rfl, hmeasure, hrest⟩ := List.map_eq_cons_iff.1 hops
  obtain ⟨b, rest, rfl, hx, -⟩ := List.map_eq_cons_iff.1 hrest
  have hshare : SharesKey a.2 b.2 := by
    rw [hmeasure, hx]
    exact sharesKey_iff.2 (by decide +kernel)
  have hlt : a.1 < b.1 := List.rel_of_pairwise_cons hkeys.ordered List.mem_cons_self hshare
  have hfound : b.2 ∈ operationsAt (s.insert 0 bundle .earliest).left.slots b.1 :=
    hlayout.mem_of_landed (List.mem_cons_of_mem _ List.mem_cons_self)
  have hb : b.1 < 2 := hlayout.landed_lt (List.mem_cons_of_mem _ List.mem_cons_self)
  have hone : b.1 = 1 := by omega
  have hcontent : operationsAt (s.insert 0 bundle .earliest).left.slots 1 = [h] := rfl
  rw [hone, hx, hcontent, List.mem_singleton] at hfound
  exact absurd (congrArg Instruction.name hfound) (by decide)

end Timetable
