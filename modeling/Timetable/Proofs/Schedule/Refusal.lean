import Timetable.Proofs.Schedule.Insertion

/-!
# What is refused, and with which fault

An operation is unfit for every schedule when it names a resource twice or contains itself, and a
finished slot when one of its operations contains itself. What is put into a schedule is checked
from left to right, so the fault that is reported is that of the first leaf which is unfit.

* `Unfit`, `Item.Unfit`: the faults of an operation and of a leaf.
* `FirstFault`: the fault of the first unfit item of a list.
* `Schedule.checkOperations_eq_error_iff`, `Schedule.checkItems_eq_error_iff`: what the checks answer.
* `Schedule.exists_firstFault_items_iff`: when there is a fault at all.
-/

namespace Timetable

variable {ω : Type} [Operation ω]

/-- Why an operation fits into no slot. -/
inductive Unfit (op : ω) : Fault → Prop
  /-- A resource is named twice. The one that is reported is the first to come for a second time. -/
  | repeats {before after : List Resource} {r : Resource} :
      resources op = before ++ r :: after → before.Nodup → r ∈ before → Unfit op (.overlap r)
  /-- A schedule nested in the operation contains itself. -/
  | nests : (resources op).Nodup → nestsInItself op = true → Unfit op .cyclicNesting

/-- Why a leaf cannot be inserted. The operations of a finished slot name no resource twice. -/
inductive Item.Unfit : Item ω → Fault → Prop
  | operation {op : ω} {e : Fault} : Timetable.Unfit op e → Item.Unfit (.operation op) e
  | slot {s : Slot ω} {op : ω} : op ∈ s.operations → nestsInItself op = true →
      Item.Unfit (.slot s) .cyclicNesting

/-- The fault is that of the first unfit item of the list. -/
def FirstFault {α : Type} (unfit : α → Fault → Prop) (l : List α) (e : Fault) : Prop :=
  ∃ before a after, l = before ++ a :: after ∧ (∀ b ∈ before, ∀ f, ¬unfit b f) ∧ unfit a e

section FirstFault

variable {α : Type} {unfit : α → Fault → Prop}

theorem not_firstFault_nil (e : Fault) : ¬FirstFault unfit [] e := by
  intro h
  obtain ⟨before, a, after, heq, -⟩ := h
  simp at heq

theorem firstFault_cons_iff {a : α} {l : List α} {e : Fault} :
    FirstFault unfit (a :: l) e ↔ unfit a e ∨ (∀ f, ¬unfit a f) ∧ FirstFault unfit l e := by
  constructor
  · intro h
    obtain ⟨before, b, after, heq, hfit, hunfit⟩ := h
    cases before with
    | nil =>
      obtain ⟨rfl, rfl⟩ := List.cons.inj heq
      exact .inl hunfit
    | cons c before =>
      obtain ⟨rfl, rfl⟩ := List.cons.inj heq
      obtain ⟨hc, hfit⟩ := List.forall_mem_cons.1 hfit
      exact .inr ⟨hc, before, b, after, rfl, hfit, hunfit⟩
  · intro h
    rcases h with hunfit | ⟨ha, before, b, after, rfl, hfit, hunfit⟩
    · exact ⟨[], a, l, rfl, by simp, hunfit⟩
    · exact ⟨a :: before, b, after, rfl, List.forall_mem_cons.2 ⟨ha, hfit⟩, hunfit⟩

/-- There is a first fault exactly when some item is unfit. -/
theorem exists_firstFault_iff {l : List α} :
    (∃ e, FirstFault unfit l e) ↔ ∃ a ∈ l, ∃ e, unfit a e := by
  induction l with
  | nil => simp [not_firstFault_nil]
  | cons a l ih =>
    simp only [firstFault_cons_iff, exists_or, exists_and_left, ih, List.exists_mem_cons_iff]
    constructor
    · intro h
      rcases h with h | ⟨-, h⟩
      · exact .inl h
      · exact .inr h
    · intro h
      by_cases ha : ∃ e, unfit a e
      · exact .inl ha
      · exact .inr ⟨not_exists.1 ha, h.resolve_left ha⟩

end FirstFault

namespace Schedule

/-! ### Operations -/

theorem firstRepeated?_eq_some_iff {seen rs : List Resource} {r : Resource} :
    firstRepeated? seen rs = some r ↔ ∃ before after, rs = before ++ r :: after ∧ before.Nodup ∧
      (∀ j ∈ before, j ∉ seen) ∧ (r ∈ before ∨ r ∈ seen) := by
  induction rs generalizing seen with
  | nil => simp [firstRepeated?]
  | cons a rs ih =>
    rw [firstRepeated?]
    by_cases ha : a ∈ seen
    · rw [if_pos (by simpa using ha)]
      constructor
      · intro h
        cases h
        exact ⟨[], rs, rfl, List.nodup_nil, by simp, .inr ha⟩
      · intro h
        obtain ⟨before, after, heq, -, hfresh, -⟩ := h
        cases before with
        | nil => rw [(List.cons.inj heq).1]
        | cons b before =>
          exact absurd ((List.cons.inj heq).1 ▸ ha) (hfresh b List.mem_cons_self)
    · rw [if_neg (by simpa using ha), ih]
      constructor
      · intro h
        obtain ⟨before, after, rfl, hnd, hfresh, hr⟩ := h
        refine ⟨a :: before, after, rfl, List.nodup_cons.2 ⟨fun hmem => ?_, hnd⟩, ?_, ?_⟩
        · exact hfresh a hmem List.mem_cons_self
        · exact List.forall_mem_cons.2 ⟨ha, fun j hj hs => hfresh j hj (List.mem_cons_of_mem _ hs)⟩
        · rcases hr with hr | hr
          · exact .inl (List.mem_cons_of_mem _ hr)
          · rcases List.mem_cons.1 hr with rfl | hr
            · exact .inl List.mem_cons_self
            · exact .inr hr
      · intro h
        obtain ⟨before, after, heq, hnd, hfresh, hr⟩ := h
        cases before with
        | nil =>
          rw [← (List.cons.inj heq).1] at hr
          exact absurd (hr.resolve_left List.not_mem_nil) ha
        | cons b before =>
          obtain ⟨rfl, rfl⟩ := List.cons.inj heq
          obtain ⟨hb, hnd⟩ := List.nodup_cons.1 hnd
          refine ⟨before, after, rfl, hnd, fun j hj hs => ?_, ?_⟩
          · rcases List.mem_cons.1 hs with rfl | hs
            · exact hb hj
            · exact hfresh j (List.mem_cons_of_mem _ hj) hs
          · rcases hr with hr | hr
            · rcases List.mem_cons.1 hr with rfl | hr
              · exact .inr List.mem_cons_self
              · exact .inl hr
            · exact .inr (List.mem_cons_of_mem _ hr)

theorem checkOperation_eq_error_iff {op : ω} {e : Fault} :
    checkOperation op = .error e ↔ Unfit op e := by
  have hsome : ∀ r, firstRepeated? [] (resources op) = some r ↔ _ := fun r =>
    firstRepeated?_eq_some_iff
  rw [checkOperation]
  cases hf : firstRepeated? [] (resources op) with
  | some r =>
    have hdup : ¬(resources op).Nodup := by
      intro hnd
      rw [firstRepeated?_eq_none_iff.2 ⟨hnd, by simp⟩] at hf
      cases hf
    obtain ⟨before, after, heq, hnd, -, hr⟩ := (hsome r).1 hf
    constructor
    · intro h
      cases h
      exact .repeats heq hnd (hr.resolve_right List.not_mem_nil)
    · intro h
      cases h with
      | @repeats before after r' heq hnd hr =>
        have := (hsome r').2 ⟨before, after, heq, hnd, by simp, .inl hr⟩
        rw [hf] at this
        cases this
        rfl
      | nests hnd _ => exact absurd hnd hdup
  | none =>
    have hnd : (resources op).Nodup := (firstRepeated?_eq_none_iff.1 hf).1
    dsimp only
    constructor
    · intro h
      split at h
      · rename_i hnest
        cases h
        exact .nests hnd hnest
      · cases h
    · intro h
      cases h with
      | repeats heq _ hr =>
        rw [heq, List.nodup_append] at hnd
        exact absurd rfl (hnd.2.2 _ hr _ List.mem_cons_self)
      | nests _ hnest => rw [if_pos hnest]

/-- An operation is unfit when it names a resource twice or contains itself. -/
theorem exists_unfit_iff {op : ω} :
    (∃ e, Unfit op e) ↔ ¬(resources op).Nodup ∨ nestsInItself op = true := by
  have hok : checkOperation op = .ok () ↔ _ := checkOperation_eq_ok_iff
  simp only [← checkOperation_eq_error_iff]
  cases hc : checkOperation op with
  | ok _ =>
    obtain ⟨hnd, hnest⟩ := hok.1 hc
    simp [hnd, hnest]
  | error f =>
    rw [hc] at hok
    have hor := mt hok.2 (by simp)
    rw [not_and_or, Bool.not_eq_false] at hor
    exact ⟨fun _ => hor, fun _ => ⟨f, rfl⟩⟩

theorem checkOperations_cons (op : ω) (ops : List ω) :
    checkOperations (op :: ops) = (checkOperation op).bind fun _ => checkOperations ops := rfl

theorem checkOperations_eq_ok_iff {ops : List ω} :
    checkOperations ops = .ok () ↔ ∀ op ∈ ops, checkOperation op = .ok () := by
  induction ops with
  | nil => simp [checkOperations]
  | cons op ops ih =>
    rw [checkOperations_cons, List.forall_mem_cons, ← ih]
    cases checkOperation op <;> simp [Except.bind]

theorem checkOperations_eq_error_iff {ops : List ω} {e : Fault} :
    checkOperations ops = .error e ↔ FirstFault Unfit ops e := by
  induction ops with
  | nil => simp [checkOperations, not_firstFault_nil]
  | cons op ops ih =>
    rw [checkOperations_cons, firstFault_cons_iff, ← ih]
    simp only [← checkOperation_eq_error_iff]
    cases checkOperation op <;> simp [Except.bind]

/-! ### Leaves -/

theorem checkSlot_eq_error_iff {s : Slot ω} {e : Fault} :
    checkSlot s = .error e ↔ e = .cyclicNesting ∧ ∃ op ∈ s.operations, nestsInItself op = true := by
  rw [checkSlot]
  split
  · rename_i h
    obtain ⟨op, hop, hnest⟩ := List.any_eq_true.1 h
    constructor
    · intro he
      cases he
      exact ⟨rfl, op, hop, hnest⟩
    · intro he
      rw [he.1]
  · rename_i h
    constructor
    · exact fun he => nomatch he
    · intro he
      exact absurd (List.any_eq_true.2 he.2) h

theorem checkItem_eq_error_iff {item : Item ω} {e : Fault} :
    checkItem item = .error e ↔ item.Unfit e := by
  cases item with
  | operation op =>
    rw [checkItem, checkOperation_eq_error_iff]
    constructor
    · exact .operation
    · intro h
      cases h with
      | operation h => exact h
  | slot s =>
    rw [checkItem, checkSlot_eq_error_iff]
    constructor
    · intro h
      obtain ⟨rfl, op, hop, hnest⟩ := h
      exact .slot hop hnest
    · intro h
      cases h with
      | slot hop hnest => exact ⟨rfl, _, hop, hnest⟩

theorem checkItems_eq_error_iff {items : List (Item ω)} {e : Fault} :
    checkItems items = .error e ↔ FirstFault Item.Unfit items e := by
  induction items with
  | nil => simp [checkItems, not_firstFault_nil]
  | cons item items ih =>
    have hcons : checkItems (item :: items) = (checkItem item).bind fun _ => checkItems items := rfl
    rw [hcons, firstFault_cons_iff, ← ih]
    simp only [← checkItem_eq_error_iff]
    cases checkItem item <;> simp [Except.bind]

/-- Some leaf is unfit exactly when a bare operation names a resource twice or an operation, be it
bare or in a finished slot, contains itself. -/
theorem exists_firstFault_items_iff {items : List (Item ω)} :
    (∃ e, FirstFault Item.Unfit items e) ↔
      (∃ op, Item.operation op ∈ items ∧ ¬(resources op).Nodup) ∨
        ∃ op ∈ items.flatMap Item.operations, nestsInItself op = true := by
  rw [exists_firstFault_iff]
  constructor
  · intro h
    obtain ⟨item, hitem, e, hunfit⟩ := h
    cases hunfit with
    | @operation op e h =>
      rcases exists_unfit_iff.1 ⟨e, h⟩ with h | h
      · exact .inl ⟨op, hitem, h⟩
      · exact .inr ⟨op, List.mem_flatMap.2 ⟨_, hitem, List.mem_singleton.2 rfl⟩, h⟩
    | @slot s op hop hnest => exact .inr ⟨op, List.mem_flatMap.2 ⟨_, hitem, hop⟩, hnest⟩
  · intro h
    rcases h with ⟨op, hitem, hdup⟩ | ⟨op, hop, hnest⟩
    · obtain ⟨e, he⟩ := exists_unfit_iff.2 (.inl hdup)
      exact ⟨_, hitem, e, .operation he⟩
    · obtain ⟨item, hitem, hmem⟩ := List.mem_flatMap.1 hop
      cases item with
      | operation a =>
        rw [List.mem_singleton.1 hmem] at hnest
        obtain ⟨e, he⟩ := exists_unfit_iff.2 (.inr hnest)
        exact ⟨_, hitem, e, .operation he⟩
      | slot s => exact ⟨_, hitem, _, .slot hmem hnest⟩

end Schedule

end Timetable
