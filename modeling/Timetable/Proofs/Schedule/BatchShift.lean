import Timetable.Proofs.Schedule.EarliestStep
import Timetable.Proofs.Schedule.Placement

/-!
# The index that a batch names

A batch of insertions keeps count of the slots that it has opened, so that a later index still names
the slot that it named at first. The count grows with the cursor, and the cursor also moves when an
old slot at the index takes the operation and none is opened. From then on every later insertion is
made one slot too late.

* `Placed`, `Absorbed`: an insertion that has been made, and that an old slot has taken.
* `Shifted`: how far the old slots are from where the count says, `Shifted.step`.
* `BatchRun`: what has been made of the insertions so far, `BatchRun.step`.
* `slips`: how many slots too late an insertion is made.
* `batchInsert_before`: what the operations of a batch come to stand before.
* `batchInsert_not_before`: an insertion that is made one slot too late.
-/

namespace Timetable

variable {ω : Type} [Operation ω]

/-! ### The count and the slots -/

/-- Of `n` old slots those from the index `bound` on are still as far on as `shift` says, or up to
`late` slots less; and all slots from there on, of `len`, are old ones. -/
structure Shifted (n bound shift late : Nat) (moved : Nat → Nat) (len : Nat) : Prop where
  moved_lt : ∀ y < n, moved y < len
  moved_le : ∀ y, moved y ≤ y + shift
  le_moved : ∀ y < n, bound + late ≤ y → y + shift ≤ moved y + late
  old : ∀ j, bound + shift ≤ j → j < len → ∃ y < n, moved y = j

namespace Shifted

variable {n bound shift late len : Nat} {moved : Nat → Nat}

theorem refl (n : Nat) : Shifted n 0 0 0 id n where
  moved_lt _ hy := hy
  moved_le y := Nat.le_refl y
  le_moved y _ _ := Nat.le_refl y
  old j _ hj := ⟨j, hj, rfl⟩

/-- The operation joins a slot before the index. -/
theorem back (h : Shifted n bound shift late moved len) {i : Nat} (hi : bound ≤ i) :
    Shifted n (i + 1) shift late moved len where
  moved_lt := h.moved_lt
  moved_le := h.moved_le
  le_moved y hy hle := h.le_moved y hy (by omega)
  old j hj hlen := h.old j (by omega) hlen

/-- A slot is opened at the index. -/
theorem fresh (h : Shifted n bound shift late moved len) {i : Nat} (hi : bound ≤ i) :
    Shifted n (i + 1) (shift + 1) late (Layout.skip (i + shift) ∘ moved) (len + 1) where
  moved_lt y hy := by
    have hlt := h.moved_lt y hy
    rw [Function.comp_apply, Layout.skip]
    split <;> omega
  moved_le y := by
    have hle := h.moved_le y
    rw [Function.comp_apply, Layout.skip]
    split <;> omega
  le_moved y hy hle := by
    have hback := h.le_moved y hy (by omega)
    rw [Function.comp_apply, Layout.skip_of_le (by omega)]
    omega
  old j hj hlen := by
    obtain ⟨y, hy, hmoved⟩ := h.old (j - 1) (by omega) (by omega)
    refine ⟨y, hy, ?_⟩
    rw [Function.comp_apply, hmoved, Layout.skip_of_le (by omega)]
    omega

/-- The slot at the index takes the operation. The count grows, and the slots stay. -/
theorem absorb (h : Shifted n bound shift late moved len) {i : Nat} (hi : bound ≤ i) :
    Shifted n (i + 1) (shift + 1) (late + 1) moved len where
  moved_lt := h.moved_lt
  moved_le y := Nat.le_succ_of_le (h.moved_le y)
  le_moved y hy hle := by
    have hback := h.le_moved y hy (by omega)
    omega
  old j hj hlen := h.old j (by omega) hlen

/-- Old slots that the count says are at the index or later are there. -/
theorem le_moved_of_late_le (h : Shifted n bound shift late moved len) {i y : Nat} (hi : bound ≤ i)
    (hy : y < n) (hle : i + late ≤ y) : i + shift ≤ moved y := by
  have hback := h.le_moved y hy (by omega)
  omega

/-- At the end there is nothing left to be moved. -/
theorem pad (h : Shifted n bound shift late moved len) {i : Nat} (hi : bound ≤ i)
    (hend : len ≤ i + shift) {grown len' : Nat} (hlen : len ≤ len')
    (hlen' : len' ≤ i + 1 + (shift + grown)) :
    Shifted n (i + 1) (shift + grown) late moved len' where
  moved_lt y hy := Nat.lt_of_lt_of_le (h.moved_lt y hy) hlen
  moved_le y := Nat.le_trans (h.moved_le y) (by omega)
  le_moved y hy hle := by
    have hlt := h.moved_lt y hy
    have hback := h.le_moved_of_late_le hi hy (by omega)
    omega
  old j hj hlen := by omega

/-- Inserting at an index keeps the count. Old slots fall behind it only when one of them, at the
index or later, has taken the operation. -/
theorem step {t t' : Schedule ω} (h : Shifted n bound shift late moved t.length) {i : Nat}
    (hi : bound ≤ i) {op : ω} {moved' : Nat → Nat} {p : Nat}
    (hstep : EarliestStep t (min (i + shift) t.length) op moved' p t') :
    ∃ late', Shifted n (i + 1)
        (shift + (max (min (i + shift) t.length) (p + 1) - (i + shift))) late' (moved' ∘ moved)
        t'.length ∧
      (late' = late ∨ late' = late + 1 ∧ ∃ y < n, i ≤ y ∧ moved' (moved y) = p) := by
  rcases hstep.opens with ⟨rfl, rfl, hlt, hlen⟩ | ⟨rfl, hle, hlen⟩
  · -- A slot is opened, and it is within the schedule.
    have hk : min (i + shift) t.length = i + shift := by omega
    rw [hk, hlen, show max (i + shift) (i + shift + 1) - (i + shift) = 1 by omega]
    exact ⟨late, h.fresh hi, .inl rfl⟩
  · rw [hlen, Function.id_comp]
    rcases Nat.lt_or_ge (i + shift) t.length with hlt | hend
    · have hk : min (i + shift) t.length = i + shift := by omega
      rw [hk] at hle ⊢
      rw [show max t.length (p + 1) = t.length by omega]
      rcases Nat.lt_or_eq_of_le hle with hback | hat
      · rw [show max (i + shift) (p + 1) - (i + shift) = 0 by omega]
        exact ⟨late, h.back hi, .inl rfl⟩
      · -- The slot is an old one, because there are no others from here on.
        subst hat
        rw [show max (i + shift) (i + shift + 1) - (i + shift) = 1 by omega]
        obtain ⟨y, hy, hmoved⟩ := h.old (i + shift) (by omega) hlt
        have hiy : i ≤ y := by
          have hy_le := h.moved_le y
          omega
        exact ⟨late + 1, h.absorb hi, .inr ⟨rfl, y, hy, hiy, hmoved⟩⟩
    · exact ⟨late, h.pad hi hend (by omega) (by omega), .inl rfl⟩

end Shifted

/-! ### Insertions that have been made -/

/-- An insertion that has been made: the index it named, the slot in which the operation stands, and
the operation. -/
structure Placed (ω : Type) where
  index : Nat
  slot : Nat
  op : ω

namespace Placed

/-- What a layout records of it. -/
def landing (d : Placed ω) : Nat × ω := (d.slot, d.op)

def edit (d : Placed ω) : Nat × ω := (d.index, d.op)

def relocate (moved : Nat → Nat) (d : Placed ω) : Placed ω := { d with slot := moved d.slot }

end Placed

/-- An old slot, the named one or one behind it, has taken the operation. -/
def Absorbed (s : Schedule ω) (moved : Nat → Nat) (d : Placed ω) : Prop :=
  ∃ y < s.length, d.index ≤ y ∧ moved y = d.slot

instance (s : Schedule ω) (moved : Nat → Nat) : DecidablePred (Absorbed s moved) := fun d =>
  inferInstanceAs (Decidable (∃ y < s.length, d.index ≤ y ∧ moved y = d.slot))

/-- How many insertions before the index have been taken by old slots. -/
def slips (s : Schedule ω) (moved : Nat → Nat) (placed : List (Placed ω)) (index : Nat) : Nat :=
  placed.countP fun d => d.index < index ∧ Absorbed s moved d

omit [Operation ω] in
theorem absorbed_relocate {s : Schedule ω} {moved moved' : Nat → Nat} (hm : StrictMono moved')
    (d : Placed ω) : Absorbed s (moved' ∘ moved) (d.relocate moved') ↔ Absorbed s moved d := by
  simp only [Absorbed, Placed.relocate, Function.comp_apply, hm.injective.eq_iff]

omit [Operation ω] in
theorem slips_relocate {s : Schedule ω} {moved moved' : Nat → Nat} (hm : StrictMono moved')
    (placed : List (Placed ω)) (index : Nat) :
    slips s (moved' ∘ moved) (placed.map (Placed.relocate moved')) index =
      slips s moved placed index := by
  rw [slips, slips, List.countP_map]
  refine List.countP_congr fun d _ => ?_
  simp only [Function.comp_apply, decide_eq_true_eq, absorbed_relocate hm]
  rfl

omit [Operation ω] in
/-- Insertions at the index or behind it do not count. -/
theorem slips_append_of_le (s : Schedule ω) (moved : Nat → Nat) (placed : List (Placed ω))
    {d : Placed ω} {index : Nat} (h : index ≤ d.index) :
    slips s moved (placed ++ [d]) index = slips s moved placed index := by
  rw [slips, List.countP_append, List.countP_singleton, if_neg (by simp; omega)]
  rfl

omit [Operation ω] in
theorem slips_append_of_absorbed {s : Schedule ω} {moved : Nat → Nat} (placed : List (Placed ω))
    {d : Placed ω} (h : Absorbed s moved d) {index : Nat} (hlt : d.index < index) :
    slips s moved (placed ++ [d]) index = slips s moved placed index + 1 := by
  rw [slips, List.countP_append, List.countP_singleton, if_pos (by simp [h, hlt])]
  rfl

omit [Operation ω] in
theorem slips_mono {s : Schedule ω} {moved : Nat → Nat} {placed placed' : List (Placed ω)}
    (hsub : placed.Sublist placed') {x y : Nat} (hxy : x ≤ y) :
    slips s moved placed x ≤ slips s moved placed' y := by
  refine Nat.le_trans (List.countP_mono_left fun d _ h => ?_) hsub.countP_le
  simp only [decide_eq_true_eq] at h ⊢
  exact ⟨Nat.lt_of_lt_of_le h.1 hxy, h.2⟩

/-- The operation stands before the operations on its resources that were in the slot of the index or
later. -/
def StandsBefore (s : Schedule ω) (moved : Nat → Nat) (d : Placed ω) (index : Nat) : Prop :=
  ∀ x, index ≤ x → ∀ op ∈ operationsAt s.slots x, SharesResource op d.op → d.slot < moved x

/-! ### A run of insertions -/

/-- Of the insertions of a batch, those below the index `bound` have been made. -/
structure BatchRun (s : Schedule ω) (bound shift late : Nat) (moved : Nat → Nat)
    (placed : List (Placed ω)) (t : Schedule ω) : Prop where
  layout : Layout s.slots moved (placed.map Placed.landing) t.slots
  sound : t.Sound
  shifted : Shifted s.length bound shift late moved t.length
  index_lt : ∀ d ∈ placed, d.index < bound
  late_le : late ≤ slips s moved placed bound
  before : ∀ d ∈ placed, StandsBefore s moved d (d.index + slips s moved placed d.index)

namespace BatchRun

variable {s t t' : Schedule ω} {bound shift late : Nat} {moved : Nat → Nat}
variable {placed : List (Placed ω)}

theorem refl (hs : s.Sound) : BatchRun s 0 0 0 id [] s where
  layout := Layout.refl s.slots
  sound := hs
  shifted := Shifted.refl s.length
  index_lt := by simp
  late_le := Nat.zero_le _
  before := by simp

/-- One more insertion, at an index that none of the earlier ones has named. -/
theorem step (h : BatchRun s bound shift late moved placed t) {i : Nat} (hi : bound ≤ i) {op : ω}
    {moved' : Nat → Nat} {p : Nat}
    (hstep : EarliestStep t (min (i + shift) t.length) op moved' p t') :
    ∃ late', BatchRun s (i + 1)
      (shift + (max (min (i + shift) t.length) (p + 1) - (i + shift))) late' (moved' ∘ moved)
      (placed.map (Placed.relocate moved') ++ [⟨i, p, op⟩]) t' := by
  obtain ⟨late', hshifted, hlate'⟩ := h.shifted.step hi hstep
  have hm : StrictMono moved' := hstep.layout.strictMono
  have hkept : ∀ x ≤ i, slips s (moved' ∘ moved)
      (placed.map (Placed.relocate moved') ++ [Placed.mk i p op]) x = slips s moved placed x := by
    intro x hx
    have hle : x ≤ (Placed.mk i p op).index := hx
    rw [slips_append_of_le s _ _ hle, slips_relocate hm]
  have hlate : late ≤ slips s moved placed i :=
    Nat.le_trans h.late_le (slips_mono (List.Sublist.refl placed) hi)
  refine ⟨late', ?_, hstep.sound, hshifted, ?_, ?_, ?_⟩
  · have hlanded :
        (placed.map (Placed.relocate moved') ++ [Placed.mk i p op]).map Placed.landing =
          relocate moved' (placed.map Placed.landing) ++ [(p, op)] := by
      rw [List.map_append, List.map_map, relocate, List.map_map]
      rfl
    rw [hlanded]
    exact h.layout.trans hstep.layout
  · intro d hd
    rcases List.mem_append.1 hd with hd | hd
    · obtain ⟨d', hd', rfl⟩ := List.mem_map.1 hd
      exact Nat.lt_succ_of_lt (Nat.lt_of_lt_of_le (h.index_lt d' hd') hi)
    · rw [List.mem_singleton.1 hd]
      exact Nat.lt_succ_self i
  · have hmono : slips s moved placed i ≤
        slips s (moved' ∘ moved) (placed.map (Placed.relocate moved')) (i + 1) := by
      rw [slips_relocate hm]
      exact slips_mono (List.Sublist.refl placed) (Nat.le_succ i)
    rcases hlate' with rfl | ⟨rfl, habsorbed⟩
    · refine Nat.le_trans (Nat.le_trans hlate hmono) ?_
      exact slips_mono (List.sublist_append_left _ _) (Nat.le_refl _)
    · have habsorbed : Absorbed s (moved' ∘ moved) ⟨i, p, op⟩ := habsorbed
      rw [slips_append_of_absorbed _ habsorbed (Nat.lt_succ_self i)]
      exact Nat.succ_le_succ (Nat.le_trans hlate hmono)
  · intro d hd x hx a ha hshare
    rcases List.mem_append.1 hd with hd | hd
    · obtain ⟨d', hd', rfl⟩ := List.mem_map.1 hd
      have hlt : (d'.relocate moved').index < i := Nat.lt_of_lt_of_le (h.index_lt d' hd') hi
      rw [hkept _ (Nat.le_of_lt hlt)] at hx
      exact hm (h.before d' hd' x hx a ha hshare)
    · -- The cursor is not behind the slot, so the step puts the operation in front of it.
      rw [List.mem_singleton.1 hd] at hx hshare ⊢
      have hx : i + slips s moved placed i ≤ x := hkept i (Nat.le_refl i) ▸ hx
      have hcursor : i + shift ≤ moved x :=
        h.shifted.le_moved_of_late_le hi (lt_length_of_mem_operationsAt ha) (by omega)
      have hle : min (i + shift) t.length ≤ moved x := by omega
      obtain ⟨r, hr, hr'⟩ := hshare
      exact hstep.before (moved x) hle a (h.layout.mem_of_moved ha) ⟨r, hr', hr⟩

/-- Where every named slot has an operation that shares a resource with the one to be put before it,
no old slot behind takes it. -/
theorem not_absorbed (h : BatchRun s bound shift late moved placed t)
    (hheld : ∀ d ∈ placed, d.index < s.length →
      ∃ op ∈ operationsAt s.slots d.index, SharesResource op d.op) :
    ∀ d ∈ placed, ¬Absorbed s moved d := by
  -- By induction on the index: before the first one that is taken nothing has slipped.
  suffices hall : ∀ i, ∀ d ∈ placed, d.index = i → ¬Absorbed s moved d from
    fun d hd => hall d.index d hd rfl
  intro i
  induction i using Nat.strong_induction_on with
  | _ i ih =>
    rintro d hd rfl ⟨y, hy, hle, hslot⟩
    have hzero : slips s moved placed d.index = 0 := by
      refine List.countP_eq_zero.2 fun d' hd' htaken => ?_
      obtain ⟨hlt, habsorbed⟩ := of_decide_eq_true htaken
      exact ih d'.index hlt d' hd' rfl habsorbed
    obtain ⟨op, hop, hshare⟩ := hheld d hd (Nat.lt_of_le_of_lt hle hy)
    have hbefore := h.before d hd
    rw [hzero] at hbefore
    have hlt : d.slot < moved d.index := hbefore d.index (Nat.le_refl _) op hop hshare
    have hmono : moved d.index ≤ moved y := h.layout.strictMono.monotone hle
    omega

end BatchRun

/-! ### Batches at different indices -/

namespace Schedule

/-- A single operation goes in by a single step. -/
theorem exists_step_of_insert {s : Schedule ω} (hs : s.Sound) {index next : Nat} {op : ω}
    (h : (s.insert index (.sequence [.operation op]) .earliest).answer = .ok next) :
    ∃ moved p, EarliestStep s (min index s.length) op moved p
        (s.insert index (.sequence [.operation op]) .earliest).left ∧
      next = max (min index s.length) (p + 1) := by
  have hitems : (Bundle.sequence [.operation op]).items = [Item.operation op] := rfl
  rw [insert, hitems] at h ⊢
  split at h
  · cases h
  · rename_i hcheck
    have hop := checkItems_eq_ok_iff.1 hcheck _ List.mem_cons_self
    obtain ⟨moved, p, s', hstep, heq⟩ :=
      exists_earliestStep hs (Nat.min_le_right index s.length) (checkOperation_eq_ok_iff.1 hop).1
    rw [heq []] at h ⊢
    cases h
    exact ⟨moved, p, hstep, rfl⟩

/-- Insertions at growing indices, one after the other. -/
theorem exists_batchRun {s s' : Schedule ω} (hs : s.Sound) {edits : List (Nat × ω)}
    (hlt : edits.Pairwise fun a b => a.1 < b.1)
    (h : s.insertGroups .checked 0 (edits.map fun e => (e.1, [.operation e.2])) = .ok s') :
    ∃ bound shift late moved placed, BatchRun s bound shift late moved placed s' ∧
      placed.map Placed.edit = edits := by
  refine insertGroups_growing (fun e : Nat × ω => (e.1, [Bundle.operation e.2]))
    (P := fun made bound shift t => ∃ late moved placed,
      BatchRun s bound shift late moved placed t ∧ placed.map Placed.edit = made)
    ?_ hlt ⟨0, id, [], BatchRun.refl hs, rfl⟩ h
  rintro _ ⟨i, op⟩ bound shift t next ⟨late, moved, placed, hrun, rfl⟩ hi hans
  obtain ⟨moved', p, hstep, rfl⟩ := exists_step_of_insert hrun.sound hans
  obtain ⟨late', hrun'⟩ := hrun.step hi hstep
  refine ⟨late', _, _, hrun', ?_⟩
  rw [List.map_append, List.map_map]
  rfl

/-- A batch of single operations at different indices is such a run. -/
theorem exists_batchRun_of_batchInsert {s : Schedule ω} (hs : s.Sound) {edits : List (Nat × ω)}
    (hdistinct : (edits.map Prod.fst).Nodup)
    (h : (s.batchInsert .checked (edits.map fun e => (e.1, .operation e.2))).answer = .ok ()) :
    ∃ bound shift late moved placed, BatchRun s bound shift late moved placed
        (s.batchInsert .checked (edits.map fun e => (e.1, .operation e.2))).left ∧
      (placed.map Placed.edit).Perm edits := by
  rw [batchInsert] at h ⊢
  obtain ⟨scratch, hgroups, hleft⟩ := commit_map_eq_ok h
  rw [hleft]
  have hperm := edits.mergeSort_perm fun a b => a.1 ≤ b.1
  have hsorted : (edits.mergeSort fun a b => a.1 ≤ b.1).Pairwise fun a b => a.1 < b.1 := by
    have hne : (edits.mergeSort fun a b => a.1 ≤ b.1).Pairwise fun a b => a.1 ≠ b.1 :=
      List.pairwise_map.1 ((hperm.map Prod.fst).nodup_iff.2 hdistinct)
    refine ((pairwise_mergeSort_index edits).and hne).imp fun hab => ?_
    exact Nat.lt_of_le_of_ne hab.1 hab.2
  rw [groupByIndex_mergeSort_map, groupByIndex_of_increasing hsorted, List.map_map] at hgroups
  obtain ⟨bound, shift, late, moved, placed, hrun, hedits⟩ :=
    exists_batchRun hs hsorted hgroups
  refine ⟨bound, shift, late, moved, placed, { hrun with }, ?_⟩
  rw [hedits]
  exact hperm

end Schedule

/-- The schedule `s'` is the schedule `s` with operations inserted before slots. Each of them stands
before what shares a resource with it and was at its index or later, except for as many slots as
operations before it have been taken by old slots. -/
structure BatchPlaced (s : Schedule ω) (edits : List (Nat × ω)) (moved : Nat → Nat)
    (placed : List (Placed ω)) (s' : Schedule ω) : Prop where
  layout : Layout s.slots moved (placed.map Placed.landing) s'.slots
  /-- Every edit has been made once, and nothing else. -/
  made : (placed.map Placed.edit).Perm edits
  before : ∀ d ∈ placed, StandsBefore s moved d (d.index + slips s moved placed d.index)

/-- **What a batch stands before.** A batch of single operations at different indices puts each of
them before what shares a resource with it and was at its index or later, as far as operations at
lower indices have not been taken by old slots. If every named slot has an operation that shares a
resource with the one to be put before it, none is. A build that does not check its sums needs
indices that leave room for the batch. -/
theorem batchInsert_before {s : Schedule ω} (hs : s.Sound) {build : Build} {edits : List (Nat × ω)}
    (hwords : build = .checked ∨ ∀ e ∈ edits, e.1 + edits.length < 2 ^ 64)
    (hdistinct : (edits.map Prod.fst).Nodup)
    (h : (s.batchInsert build (edits.map fun e => (e.1, .operation e.2))).answer = .ok ()) :
    ∃ moved placed, BatchPlaced s edits moved placed
        (s.batchInsert build (edits.map fun e => (e.1, .operation e.2))).left ∧
      ((∀ e ∈ edits, e.1 < s.length → ∃ op ∈ operationsAt s.slots e.1, SharesResource op e.2) →
        ∀ d ∈ placed, StandsBefore s moved d d.index) := by
  rw [Schedule.batchInsert_operations_eq_checked hwords] at h ⊢
  obtain ⟨_, _, _, moved, placed, hrun, hedits⟩ :=
    Schedule.exists_batchRun_of_batchInsert hs hdistinct h
  refine ⟨moved, placed, ⟨hrun.layout, hedits, hrun.before⟩, fun hheld d hd => ?_⟩
  have hnone : slips s moved placed d.index = 0 := by
    refine List.countP_eq_zero.2 fun d' hd' htaken => ?_
    refine hrun.not_absorbed (fun a ha => ?_) d' hd' (of_decide_eq_true htaken).2
    exact hheld a.edit (hedits.mem_iff.1 (List.mem_map_of_mem ha))
  have hbefore := hrun.before d hd
  rwa [hnone, Nat.add_zero] at hbefore

/-- Two insertions before slots whose operations they cannot join. -/
theorem batchInsert_before_two :
    let a : Instruction := { name := "a", resources := [.line 0] }
    let x : Instruction := { name := "x", resources := [.line 0, .line 1] }
    let slot : Slot Instruction := ⟨[a], SortedMap.insert ∅ (.line 0) 0⟩
    let s := Schedule.ofSlots [slot, slot]
    let edits : List (Nat × Instruction) := [(1, a), (0, x)]
    (s.Sound ∧ (edits.map Prod.fst).Nodup ∧
      (s.batchInsert .checked (edits.map fun e => (e.1, .operation e.2))).answer = .ok ()) ∧
    ∃ moved placed, BatchPlaced s edits moved placed
        (s.batchInsert .checked (edits.map fun e => (e.1, .operation e.2))).left ∧
      ((∀ e ∈ edits, e.1 < s.length → ∃ op ∈ operationsAt s.slots e.1, SharesResource op e.2) →
        ∀ d ∈ placed, StandsBefore s moved d d.index) := by
  intro a x slot s edits
  have hslot : slot.Sound := Slot.Sound.ofOperations (rfl : Slot.ofOperations [a] = .ok slot)
  have hs : s.Sound := by
    show ∀ t ∈ [slot, slot], t.Sound
    simp [hslot]
  have hdistinct : (edits.map Prod.fst).Nodup := by decide
  have hsort : ((edits.map fun e => (e.1, Bundle.operation e.2)).mergeSort fun a b => a.1 ≤ b.1) =
      [(0, .operation x), (1, .operation a)] := by
    simp [edits, List.mergeSort, List.MergeSort.Internal.splitInTwo]
  have hok : (s.batchInsert .checked (edits.map fun e => (e.1, .operation e.2))).answer = .ok () := by
    rw [Schedule.batchInsert, hsort]
    decide +kernel
  exact ⟨⟨hs, hdistinct, hok⟩, batchInsert_before hs (.inl rfl) hdistinct hok⟩

/-- The first operation is taken by the slot it was to be put before. The second one then goes in
behind the slot that it was to be put before, although it acts on the resource of that slot. -/
theorem batchInsert_not_before :
    let a : Instruction := { name := "a", resources := [.line 0] }
    let b : Instruction := { name := "b", resources := [.line 0] }
    let x : Instruction := { name := "x", resources := [.line 1] }
    let y : Instruction := { name := "y", resources := [.line 0] }
    let first : Slot Instruction := ⟨[a], SortedMap.insert ∅ (.line 0) 0⟩
    let second : Slot Instruction := ⟨[b], SortedMap.insert ∅ (.line 0) 0⟩
    let s := Schedule.ofSlots [first, second]
    let edits : List (Nat × Instruction) := [(0, x), (1, y)]
    s.Sound ∧ s.acceptance = none ∧ (edits.map Prod.fst).Nodup ∧ (∀ e ∈ edits, e.1 ≤ s.length) ∧
    (s.batchInsert .checked (edits.map fun e => (e.1, .operation e.2))).answer = .ok () ∧
    ¬∃ (moved : Nat → Nat) (placed : List (Placed Instruction)),
      Layout s.slots moved (placed.map Placed.landing)
        (s.batchInsert .checked (edits.map fun e => (e.1, .operation e.2))).left.slots ∧
      (placed.map Placed.edit).Perm edits ∧ ∀ d ∈ placed, StandsBefore s moved d d.index := by
  intro a b x y first second s edits
  have hfirst : first.Sound := Slot.Sound.ofOperations (rfl : Slot.ofOperations [a] = .ok first)
  have hsecond : second.Sound := Slot.Sound.ofOperations (rfl : Slot.ofOperations [b] = .ok second)
  have hs : s.Sound := by
    show ∀ t ∈ [first, second], t.Sound
    simp [hfirst, hsecond]
  have hsort : ((edits.map fun e => (e.1, Bundle.operation e.2)).mergeSort fun a b => a.1 ≤ b.1) =
      [(0, .operation x), (1, .operation y)] := by
    simp [edits, List.mergeSort, List.MergeSort.Internal.splitInTwo]
  rw [Schedule.batchInsert, hsort]
  refine ⟨hs, rfl, ?_, ?_, ?_, ?_⟩
  · decide
  · decide
  · decide +kernel
  rintro ⟨moved, placed, hlayout, hedits, hbefore⟩
  obtain ⟨d, hd, hedit⟩ : ∃ d ∈ placed, d.edit = (1, y) :=
    List.mem_map.1 (hedits.mem_iff.2 (by simp [edits]))
  obtain ⟨hindex, hop⟩ := Prod.mk.inj hedit
  have hlt : d.slot < moved 1 := by
    have hb : b ∈ operationsAt s.slots 1 := by
      show b ∈ [b]
      exact List.mem_cons_self
    refine hbefore d hd 1 (Nat.le_of_eq hindex) b hb ?_
    rw [hop]
    exact ⟨.line 0, by decide, by decide⟩
  have hthree : moved 1 < 3 :=
    Nat.lt_of_lt_of_eq (hlayout.moved_lt 1 (by decide)) (by decide +kernel)
  -- The operation is in neither of the two slots that could be meant.
  have hfound := hlayout.mem_of_landed (List.mem_map_of_mem hd)
  rw [show d.landing = (d.slot, y) from congrArg (Prod.mk d.slot) hop] at hfound
  have hname := List.mem_map_of_mem (f := Instruction.name) hfound
  have hcases : d.slot = 0 ∨ d.slot = 1 := by omega
  rcases hcases with hslot | hslot
  · rw [hslot] at hname
    exact absurd hname (by decide +kernel)
  · rw [hslot] at hname
    exact absurd hname (by decide +kernel)

end Timetable
