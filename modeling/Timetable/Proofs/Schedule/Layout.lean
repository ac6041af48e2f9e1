import Timetable.Proofs.Slot.Sound
import Timetable.Schedule
import Mathlib.Algebra.BigOperators.Group.Finset.Basic
import Mathlib.Algebra.BigOperators.Group.List.Basic
import Mathlib.Order.Monotone.Basic
import Mathlib.Order.Nat

/-!
# What an edit adds, and where

An edit that only adds operations keeps the slots of a schedule in their order, puts new operations
at the end of some of them, and makes further slots for others. A layout records this: where each
old slot has gone, and in which slot each new operation has landed. The content of every slot of the
new schedule follows from the old schedule and the record.

* `operationsAt`, `landedIn`: the operations of a slot, and those of a record that land in it.
* `Layout`: the relation between the old slots, the record and the new slots.
* `Layout.refl`, `Layout.trans`: edits after each other; the record of the first is moved by the
  second.
* `Layout.insertIdx`, `Layout.openGap`, `Layout.pad`, `Layout.set`: the elementary edits.
* `Layout.operations_perm`: nothing is lost and nothing is there twice.
* `Schedule.Adds`: just these operations have been added to a schedule.
-/

namespace Timetable

variable {ω : Type}

/-- The operations of the slot of an index. Beyond the end there are none. -/
def operationsAt (slots : List (Slot ω)) (x : Nat) : List ω :=
  (slots[x]?.map Slot.operations).getD []

/-- The operations that land in the slot of an index, in the order of the record. -/
def landedIn (landed : List (Nat × ω)) (x : Nat) : List ω :=
  (landed.filter fun e => e.1 = x).map Prod.snd

/-- A record of landings after the slots have been moved. -/
def relocate (moved : Nat → Nat) (landed : List (Nat × ω)) : List (Nat × ω) :=
  landed.map fun e => (moved e.1, e.2)

/-- The slots `new` are the slots `old`, moved by `moved` and with the operations of `landed` added;
every further slot holds nothing but operations of `landed`. -/
structure Layout (old : List (Slot ω)) (moved : Nat → Nat) (landed : List (Nat × ω))
    (new : List (Slot ω)) : Prop where
  strictMono : StrictMono moved
  moved_lt : ∀ i < old.length, moved i < new.length
  content_moved : ∀ i < old.length,
    operationsAt new (moved i) = operationsAt old i ++ landedIn landed (moved i)
  content_fresh : ∀ x, (∀ i < old.length, moved i ≠ x) → operationsAt new x = landedIn landed x

/-! ### Reading slots and records -/

/-- A record with one item more, taken apart around an item: that is the new item, or the record has
been taken apart around it before. -/
theorem split_concat {α : Type} {record earlier later : List α} {new item : α}
    (h : record ++ [new] = earlier ++ item :: later) :
    (earlier = record ∧ item = new) ∨ ∃ rest, record = earlier ++ item :: rest := by
  rcases later.eq_nil_or_concat' with rfl | ⟨later, last, rfl⟩
  · obtain ⟨rfl, hitem⟩ := List.append_inj' h rfl
    exact .inl ⟨rfl, (List.singleton_inj.1 hitem).symm⟩
  · rw [← List.cons_append, ← List.append_assoc] at h
    exact .inr ⟨later, (List.append_inj' h rfl).1⟩

theorem operationsAt_of_getElem? {slots : List (Slot ω)} {x : Nat} {slot : Slot ω}
    (h : slots[x]? = some slot) : operationsAt slots x = slot.operations := by
  rw [operationsAt, h]
  rfl

theorem operationsAt_of_length_le {slots : List (Slot ω)} {x : Nat} (h : slots.length ≤ x) :
    operationsAt slots x = [] := by
  rw [operationsAt, List.getElem?_eq_none h]
  rfl

theorem getElem?_operationsAt (slots : List (Slot ω)) (x p : Nat) :
    (operationsAt slots x)[p]? = slots[x]?.bind fun slot => slot.operations[p]? := by
  rw [operationsAt]
  cases slots[x]? <;> rfl

theorem mem_operationsAt {slots : List (Slot ω)} {x : Nat} {op : ω} :
    op ∈ operationsAt slots x ↔ ∃ slot, slots[x]? = some slot ∧ op ∈ slot.operations := by
  rw [operationsAt]
  cases slots[x]? <;> simp

theorem operationsAt_set {slots : List (Slot ω)} {p : Nat} (hp : p < slots.length) (slot : Slot ω)
    (x : Nat) :
    operationsAt (slots.set p slot) x =
      if x = p then slot.operations else operationsAt slots x := by
  by_cases h : x = p
  · rw [if_pos h, h, operationsAt, List.getElem?_set_self hp]
    rfl
  · rw [if_neg h, operationsAt, List.getElem?_set_ne (Ne.symm h)]
    rfl

theorem lt_length_of_mem_operationsAt {slots : List (Slot ω)} {x : Nat} {op : ω}
    (h : op ∈ operationsAt slots x) : x < slots.length := by
  obtain ⟨slot, hslot, -⟩ := mem_operationsAt.1 h
  exact (List.getElem?_eq_some_iff.1 hslot).1

/-- Sound slots with the same operations are the same. -/
theorem getElem_eq_of_operationsAt [Operation ω] {slots slots' : List (Slot ω)}
    (h : ∀ slot ∈ slots, slot.Sound) (h' : ∀ slot ∈ slots', slot.Sound) {x : Nat}
    (hx : x < slots.length) (hx' : x < slots'.length)
    (hops : operationsAt slots x = operationsAt slots' x) : slots[x] = slots'[x] := by
  apply (h _ (List.getElem_mem hx)).ext (h' _ (List.getElem_mem hx'))
  rw [← operationsAt_of_getElem? (List.getElem?_eq_getElem hx), hops,
    operationsAt_of_getElem? (List.getElem?_eq_getElem hx')]

@[simp]
theorem landedIn_nil (x : Nat) : landedIn ([] : List (Nat × ω)) x = [] := rfl

@[simp]
theorem landedIn_append (l m : List (Nat × ω)) (x : Nat) :
    landedIn (l ++ m) x = landedIn l x ++ landedIn m x := by
  rw [landedIn, List.filter_append, List.map_append]
  rfl

theorem landedIn_singleton (p : Nat) (op : ω) (x : Nat) :
    landedIn [(p, op)] x = if p = x then [op] else [] := by
  by_cases h : p = x <;> simp [landedIn, h]

theorem mem_landedIn {landed : List (Nat × ω)} {x : Nat} {op : ω} :
    op ∈ landedIn landed x ↔ (x, op) ∈ landed := by
  simp [landedIn]

theorem landedIn_eq_nil {landed : List (Nat × ω)} {x : Nat} (h : ∀ e ∈ landed, e.1 ≠ x) :
    landedIn landed x = [] :=
  List.eq_nil_iff_forall_not_mem.2 fun op hop => h (x, op) (mem_landedIn.1 hop) rfl

/-- Operations that land together in one slot. -/
theorem landedIn_map_mk (k : Nat) (ops : List ω) (x : Nat) :
    landedIn (ops.map fun op => (k, op)) x = if k = x then ops else [] := by
  by_cases h : k = x <;> simp [landedIn, List.filter_map, Function.comp_def, h]

theorem landedIn_relocate {moved : Nat → Nat} (hm : StrictMono moved) (landed : List (Nat × ω))
    (x : Nat) : landedIn (relocate moved landed) (moved x) = landedIn landed x := by
  simp only [landedIn, relocate, List.filter_map, List.map_map, Function.comp_def,
    hm.injective.eq_iff]

theorem landedIn_relocate_of_ne {moved : Nat → Nat} {landed : List (Nat × ω)} {x : Nat}
    (h : ∀ e ∈ landed, moved e.1 ≠ x) : landedIn (relocate moved landed) x = [] := by
  refine landedIn_eq_nil fun d hd => ?_
  obtain ⟨e, he, rfl⟩ := List.mem_map.1 hd
  exact h e he

theorem map_snd_indexedOperations (slots : List (Slot ω)) :
    (Schedule.indexedOperations slots).map Prod.snd = slots.flatMap Slot.operations := by
  have hslot : ∀ e : Slot ω × Nat, (e.1.operations.map fun op => (e.2, op)).map Prod.snd
      = e.1.operations := by
    intro e
    rw [List.map_map]
    exact List.map_id _
  rw [Schedule.indexedOperations, List.map_flatMap]
  simp only [hslot]
  rw [← List.flatMap_map, List.zipIdx_map_fst]

/-- The operations of a schedule with their indices are a record of what is in its slots. -/
theorem landedIn_indexedOperations (slots : List (Slot ω)) (x : Nat) :
    landedIn (Schedule.indexedOperations slots) x = operationsAt slots x := by
  induction slots using List.reverseRecOn with
  | nil => rfl
  | append_singleton slots slot ih =>
    have hlast : Schedule.indexedOperations (slots ++ [slot])
        = Schedule.indexedOperations slots ++ slot.operations.map fun op => (slots.length, op) := by
      simp [Schedule.indexedOperations, List.zipIdx_append]
    rw [hlast, landedIn_append, ih, landedIn_map_mk]
    rcases Nat.lt_trichotomy x slots.length with hlt | rfl | hgt
    · rw [if_neg (Nat.ne_of_gt hlt), List.append_nil, operationsAt, operationsAt,
        List.getElem?_append_left hlt]
    · rw [if_pos rfl, operationsAt_of_length_le (Nat.le_refl _), List.nil_append]
      exact (operationsAt_of_getElem? List.getElem?_concat_length).symm
    · rw [if_neg (Nat.ne_of_lt hgt), List.append_nil, operationsAt_of_length_le (Nat.le_of_lt hgt),
        operationsAt_of_length_le]
      simp
      omega

theorem mem_indexedOperations_iff {slots : List (Slot ω)} {e : Nat × ω} :
    e ∈ Schedule.indexedOperations slots ↔ e.2 ∈ operationsAt slots e.1 := by
  rw [← landedIn_indexedOperations, mem_landedIn]

theorem map_snd_relocate (moved : Nat → Nat) (landed : List (Nat × ω)) :
    (relocate moved landed).map Prod.snd = landed.map Prod.snd := by
  rw [relocate, List.map_map]
  rfl

theorem relocate_of_fixed {moved : Nat → Nat} {landed : List (Nat × ω)}
    (h : ∀ e ∈ landed, moved e.1 = e.1) : relocate moved landed = landed := by
  have hmap : ∀ e ∈ landed, (moved e.1, e.2) = id e := fun e he => by rw [h e he, id]
  rw [relocate, List.map_congr_left hmap, List.map_id]

namespace Layout

variable {old mid new : List (Slot ω)} {moved moved' : Nat → Nat}
variable {landed landed' : List (Nat × ω)}

/-- Every operation of the record is found in the slot where it has landed. -/
theorem mem_of_landed (h : Layout old moved landed new) {e : Nat × ω} (he : e ∈ landed) :
    e.2 ∈ operationsAt new e.1 := by
  have hland : e.2 ∈ landedIn landed e.1 := mem_landedIn.2 he
  by_cases hx : ∀ i < old.length, moved i ≠ e.1
  · rw [h.content_fresh e.1 hx]
    exact hland
  · push Not at hx
    obtain ⟨i, hi, hie⟩ := hx
    rw [← hie] at hland ⊢
    rw [h.content_moved i hi]
    exact List.mem_append_right _ hland

theorem landed_lt (h : Layout old moved landed new) {e : Nat × ω} (he : e ∈ landed) :
    e.1 < new.length := lt_length_of_mem_operationsAt (h.mem_of_landed he)

/-- Every old operation is found in the slot to which its own has been moved. -/
theorem mem_of_moved (h : Layout old moved landed new) {i : Nat} {op : ω}
    (hop : op ∈ operationsAt old i) : op ∈ operationsAt new (moved i) := by
  rw [h.content_moved i (lt_length_of_mem_operationsAt hop)]
  exact List.mem_append_left _ hop

theorem refl (slots : List (Slot ω)) : Layout slots id [] slots where
  strictMono := strictMono_id
  moved_lt _ hi := hi
  content_moved i _ := by simp
  content_fresh x hx := by
    have hlen : slots.length ≤ x := Nat.le_of_not_lt fun hlt => hx x hlt rfl
    rw [operationsAt_of_length_le hlen]
    rfl

/-- An edit that moves nothing adds to every slot just what lands there. -/
theorem content_of_id (h : Layout old id landed new) (x : Nat) :
    operationsAt new x = operationsAt old x ++ landedIn landed x := by
  rcases Nat.lt_or_ge x old.length with hx | hx
  · exact h.content_moved x hx
  · rw [h.content_fresh x fun i hi => Nat.ne_of_lt (Nat.lt_of_lt_of_le hi hx),
      operationsAt_of_length_le hx, List.nil_append]

/-- One edit after another. -/
theorem trans (h : Layout old moved landed mid) (h' : Layout mid moved' landed' new) :
    Layout old (moved' ∘ moved) (relocate moved' landed ++ landed') new where
  strictMono := h'.strictMono.comp h.strictMono
  moved_lt i hi := h'.moved_lt _ (h.moved_lt i hi)
  content_moved i hi := by
    show operationsAt new (moved' (moved i)) = _
    rw [h'.content_moved _ (h.moved_lt i hi), h.content_moved i hi, Function.comp_apply,
      landedIn_append, landedIn_relocate h'.strictMono, List.append_assoc]
  content_fresh x hx := by
    rw [landedIn_append]
    by_cases hmid : ∃ y < mid.length, moved' y = x
    · obtain ⟨y, hy, rfl⟩ := hmid
      have hfresh : ∀ i < old.length, moved i ≠ y := fun i hi he => hx i hi (congrArg moved' he)
      rw [h'.content_moved y hy, h.content_fresh y hfresh, landedIn_relocate h'.strictMono]
    · push Not at hmid
      rw [h'.content_fresh x hmid, landedIn_relocate_of_ne fun e he => hmid e.1 (h.landed_lt he),
        List.nil_append]

/-! ### Elementary edits -/

/-- The index of an old slot after one slot has been put in at `k`. -/
def skip (k i : Nat) : Nat := if i < k then i else i + 1

theorem skip_of_lt {k i : Nat} (h : i < k) : skip k i = i := if_pos h

theorem skip_of_le {k i : Nat} (h : k ≤ i) : skip k i = i + 1 := if_neg (Nat.not_lt.2 h)

theorem strictMono_skip (k : Nat) : StrictMono (skip k) := by
  intro i j hij
  rw [skip, skip]
  split <;> split <;> omega

/-- A slot goes in as it is. -/
theorem insertIdx {k : Nat} (hk : k ≤ old.length) (slot : Slot ω) :
    Layout old (skip k) (slot.operations.map fun op => (k, op)) (old.insertIdx k slot) where
  strictMono := strictMono_skip k
  moved_lt i hi := by
    rw [List.length_insertIdx_of_le_length hk, skip]
    split <;> omega
  content_moved i hi := by
    rw [landedIn_map_mk]
    rcases Nat.lt_or_ge i k with h | h
    · rw [skip_of_lt h, if_neg (Nat.ne_of_gt h), List.append_nil, operationsAt,
        List.getElem?_insertIdx_of_lt h]
      rfl
    · rw [skip_of_le h, if_neg (by omega), List.append_nil, operationsAt,
        List.getElem?_insertIdx_of_gt (by omega)]
      rfl
  content_fresh x hx := by
    rw [landedIn_map_mk]
    rcases Nat.lt_trichotomy x k with h | rfl | h
    · exact absurd (skip_of_lt h) (hx x (by omega))
    · have hself : (old.insertIdx x slot)[x]? = some slot := by
        rw [List.getElem?_insertIdx_self, if_pos hk]
      rw [if_pos rfl, operationsAt_of_getElem? hself]
    · have hlen : (old.insertIdx k slot).length ≤ x := by
        rw [List.length_insertIdx_of_le_length hk]
        refine Nat.le_of_not_lt fun hlt => hx (x - 1) (by omega) ?_
        rw [skip_of_le (by omega)]
        omega
      rw [operationsAt_of_length_le hlen, if_neg (by omega)]

/-- The index of an old slot after `n` slots have been put in at `k`. -/
def spread (k n i : Nat) : Nat := if i < k then i else i + n

theorem spread_of_lt {k n i : Nat} (h : i < k) : spread k n i = i := if_pos h

theorem spread_of_le {k n i : Nat} (h : k ≤ i) : spread k n i = i + n := if_neg (Nat.not_lt.2 h)

/-- Where a cut before the slot of an index is after `n` slots have been put in at `k`. A cut at the
gap stays before the gap. -/
def cut (k n i : Nat) : Nat := if k < i then i + n else i

/-- A cut moves along with the slots: the same slots are before it. -/
theorem spread_lt_cut_iff {k n i j : Nat} : spread k n i < cut k n j ↔ i < j := by
  rw [spread, cut]
  split <;> split <;> omega

theorem cut_zero (k i : Nat) : cut k 0 i = i := ite_self _

theorem le_cut (k n i : Nat) : i ≤ cut k n i := by
  rw [cut]
  split <;> omega

/-- Empty slots go in between two slots. -/
theorem openGap {k : Nat} (hk : k ≤ old.length) (n : Nat) :
    Layout old (spread k n) [] (old.take k ++ List.replicate n Slot.empty ++ old.drop k) where
  strictMono := by
    intro i j hij
    rw [spread, spread]
    split <;> split <;> omega
  moved_lt i hi := by
    rw [spread]
    simp only [List.length_append, List.length_take, List.length_replicate, List.length_drop]
    split <;> omega
  content_moved i hi := by
    rw [landedIn_nil, List.append_nil, operationsAt, operationsAt]
    rcases Nat.lt_or_ge i k with h | h
    · rw [spread_of_lt h, List.append_assoc, List.getElem?_append_left (by simp; omega),
        List.getElem?_take_of_lt h]
    · rw [spread_of_le h, List.getElem?_append_right (by simp; omega), List.getElem?_drop]
      congr 3
      simp only [List.length_append, List.length_take, List.length_replicate]
      omega
  content_fresh x hx := by
    rw [landedIn_nil]
    rcases Nat.lt_or_ge x k with h | h
    · exact absurd (spread_of_lt h) (hx x (by omega))
    · have hgap : x < k + n ∨ old.length + n ≤ x := by
        by_contra hnot
        refine hx (x - n) (by omega) ?_
        rw [spread_of_le (by omega)]
        omega
      rcases hgap with hgap | hgap
      · rw [operationsAt, List.append_assoc, List.getElem?_append_right (by simp; omega),
          List.getElem?_append_left (by simp; omega), List.getElem?_replicate]
        split <;> rfl
      · refine operationsAt_of_length_le ?_
        simp only [List.length_append, List.length_take, List.length_replicate, List.length_drop]
        omega

/-- Empty slots are added at the end. -/
theorem pad (slots : List (Slot ω)) (n : Nat) :
    Layout slots id [] (slots ++ List.replicate n Slot.empty) where
  strictMono := strictMono_id
  moved_lt i hi := by
    rw [List.length_append]
    exact Nat.lt_add_right _ hi
  content_moved i hi := by
    rw [landedIn_nil, List.append_nil, id, operationsAt, List.getElem?_append_left hi]
    rfl
  content_fresh x hx := by
    have hlen : slots.length ≤ x := Nat.le_of_not_lt fun hlt => hx x hlt rfl
    rw [landedIn_nil, operationsAt, List.getElem?_append_right hlen, List.getElem?_replicate]
    split <;> rfl

/-- An operation is added to the slot of an index. -/
theorem set {p : Nat} {slot slot' : Slot ω} {op : ω} (hp : old[p]? = some slot)
    (hop : slot'.operations = slot.operations ++ [op]) :
    Layout old id [(p, op)] (old.set p slot') where
  strictMono := strictMono_id
  moved_lt i hi := by
    rw [List.length_set]
    exact hi
  content_moved i hi := by
    rw [landedIn_singleton, id, operationsAt_set (List.getElem?_eq_some_iff.1 hp).1]
    by_cases h : i = p
    · rw [if_pos h, if_pos h.symm, h, operationsAt_of_getElem? hp, hop]
    · rw [if_neg h, if_neg (Ne.symm h), List.append_nil]
  content_fresh x hx := by
    have hlen : old.length ≤ x := Nat.le_of_not_lt fun hlt => hx x hlt rfl
    have hplt : p < old.length := (List.getElem?_eq_some_iff.1 hp).1
    rw [landedIn_singleton, if_neg (by omega), operationsAt_of_length_le]
    rw [List.length_set]
    exact hlen

end Layout

/-! ### Everything together -/

open Finset in
theorem count_operations [DecidableEq ω] (slots : List (Slot ω)) (a : ω) :
    (slots.flatMap Slot.operations).count a
      = ∑ x ∈ range slots.length, (operationsAt slots x).count a := by
  induction slots with
  | nil => rfl
  | cons slot slots ih =>
    rw [List.flatMap_cons, List.count_append, ih, List.length_cons, sum_range_succ', Nat.add_comm]
    rfl

open Finset in
theorem count_landed [DecidableEq ω] {landed : List (Nat × ω)} {m : Nat}
    (h : ∀ e ∈ landed, e.1 < m) (a : ω) :
    (landed.map Prod.snd).count a = ∑ x ∈ range m, (landedIn landed x).count a := by
  induction landed with
  | nil => simp
  | cons e landed ih =>
    obtain ⟨he, h⟩ := List.forall_mem_cons.1 h
    have hsplit : ∀ x, landedIn (e :: landed) x = landedIn [e] x ++ landedIn landed x := fun x =>
      landedIn_append [e] landed x
    have hone : ∑ x ∈ range m, (landedIn [e] x).count a = [e.2].count a := by
      rw [sum_eq_single_of_mem e.1 (mem_range.2 he), landedIn_singleton, if_pos rfl]
      intro x _ hx
      rw [landedIn_singleton, if_neg (Ne.symm hx), List.count_nil]
    simp only [hsplit, List.count_append, sum_add_distrib, hone, ← ih h]
    rw [List.map_cons, ← List.singleton_append, List.count_append]

open Finset in
/-- Nothing is lost and nothing is there twice: the operations afterwards are those before, together
with those of the record. -/
theorem Layout.operations_perm {old new : List (Slot ω)} {moved : Nat → Nat}
    {landed : List (Nat × ω)} (h : Layout old moved landed new) :
    (new.flatMap Slot.operations).Perm (old.flatMap Slot.operations ++ landed.map Prod.snd) := by
  classical
  rw [List.perm_iff_count]
  intro a
  rw [List.count_append, count_operations, count_operations, count_landed fun e => h.landed_lt]
  -- The slots that old slots have been moved to, and the others.
  have hsub : (range old.length).image moved ⊆ range new.length := by
    intro x hx
    obtain ⟨i, hi, rfl⟩ := mem_image.1 hx
    exact mem_range.2 (h.moved_lt i (mem_range.1 hi))
  have himage : ∀ f : Nat → Nat, ∑ x ∈ (range old.length).image moved, f x
      = ∑ i ∈ range old.length, f (moved i) := fun f =>
    sum_image fun i _ j _ => h.strictMono.injective.eq_iff.1
  have hfresh : ∀ x ∈ range new.length \ (range old.length).image moved,
      (operationsAt new x).count a = (landedIn landed x).count a := by
    intro x hx
    rw [h.content_fresh x]
    intro i hi heq
    exact (mem_sdiff.1 hx).2 (mem_image.2 ⟨i, mem_range.2 hi, heq⟩)
  have hmoved : ∀ i ∈ range old.length, (operationsAt new (moved i)).count a
      = (operationsAt old i).count a + (landedIn landed (moved i)).count a := by
    intro i hi
    rw [h.content_moved i (mem_range.1 hi), List.count_append]
  rw [← sum_sdiff hsub, ← sum_sdiff hsub, himage, himage, sum_congr rfl hfresh,
    sum_congr rfl hmoved, sum_add_distrib]
  omega

/-! ### Schedules with operations added -/

namespace Schedule

/-- The schedule `s'` is the schedule `s` with just the operations of `ops` added: old slots keep
their order and what they hold, and further slots hold nothing but operations of `ops`. -/
def Adds (s : Schedule ω) (ops : List ω) (s' : Schedule ω) : Prop :=
  ∃ moved landed, Layout s.slots moved landed s'.slots ∧ (landed.map Prod.snd).Perm ops

namespace Adds

variable {s mid s' : Schedule ω} {ops ops' : List ω}

theorem refl (s : Schedule ω) : s.Adds [] s := ⟨id, [], Layout.refl s.slots, List.Perm.refl []⟩

theorem trans (h : s.Adds ops mid) (h' : mid.Adds ops' s') : s.Adds (ops ++ ops') s' := by
  obtain ⟨moved, landed, hlayout, hperm⟩ := h
  obtain ⟨moved', landed', hlayout', hperm'⟩ := h'
  refine ⟨_, _, hlayout.trans hlayout', ?_⟩
  rw [List.map_append, map_snd_relocate]
  exact hperm.append hperm'

theorem of_perm (h : s.Adds ops s') (hops : ops.Perm ops') : s.Adds ops' s' := by
  obtain ⟨moved, landed, hlayout, hperm⟩ := h
  exact ⟨moved, landed, hlayout, hperm.trans hops⟩

/-- The operations afterwards are those before and those that have been added. -/
theorem operations_perm (h : s.Adds ops s') : s'.operations.Perm (s.operations ++ ops) := by
  obtain ⟨moved, landed, hlayout, hperm⟩ := h
  exact hlayout.operations_perm.trans (hperm.append_left _)

end Adds

end Schedule

end Timetable
