import Timetable.Instruction
import Timetable.Proofs.Slot.Parts

/-!
# Slots, however they are made

A slot is made from a list of operations, and from other slots by adding operations, by uniting two
of them, by taking operations out, or by putting one operation in the place of another. Some of
these steps check for shared resources, the others number the remaining operations anew. Whatever
the sequence of steps, the index of the slot is exact, so that asking the index is the same as
looking through the operations.

* `Slot.Made`: the slots that the steps make; `Slot.Made.sound`.
* `Slot.Exact`: what the index answers, compared with a look through the operations.
* `FirstRepeat`, `Slot.Sound.pushAll_eq_error_iff`: when operations do not fit together.
* `Slot.LeastShared`, `Slot.Sound.disjointUnion_eq_error_iff`: when two slots cannot be united.
* `Slot.made_exact`: all of it.
-/

namespace Timetable

/-! ### The first item to come for a second time -/

/-- The item is the first of the list that has come before. -/
def FirstRepeat {α : Type} (l : List α) (a : α) : Prop :=
  ∃ before after, l = before ++ a :: after ∧ before.Nodup ∧ a ∈ before

namespace FirstRepeat

variable {α : Type} {l : List α} {a b : α}

theorem not_nodup (h : FirstRepeat l a) : ¬l.Nodup := by
  obtain ⟨before, after, rfl, -, ha⟩ := h
  intro hnd
  exact (List.nodup_append.1 hnd).2.2 a ha a List.mem_cons_self rfl

theorem append (h : FirstRepeat l a) (m : List α) : FirstRepeat (l ++ m) a := by
  obtain ⟨before, after, rfl, hnd, ha⟩ := h
  exact ⟨before, after ++ m, by simp, hnd, ha⟩

/-- At most one item is the first. -/
theorem unique (ha : FirstRepeat l a) (hb : FirstRepeat l b) : a = b := by
  obtain ⟨before, after, rfl, hnd, hmem⟩ := ha
  obtain ⟨before', after', heq, hnd', hmem'⟩ := hb
  rcases List.append_eq_append_iff.1 heq with ⟨between, h, h'⟩ | ⟨between, h, h'⟩
  · cases between with
    | nil => exact (List.cons.inj h').1
    | cons c between =>
      obtain ⟨rfl, -⟩ := List.cons.inj h'
      rw [h] at hnd'
      exact absurd rfl ((List.nodup_append.1 hnd').2.2 a hmem a List.mem_cons_self)
  · cases between with
    | nil => exact (List.cons.inj h').1.symm
    | cons c between =>
      obtain ⟨rfl, -⟩ := List.cons.inj h'
      rw [h] at hnd
      exact absurd rfl ((List.nodup_append.1 hnd).2.2 b hmem' b List.mem_cons_self)

end FirstRepeat

theorem exists_error_iff {α : Type} {x : Except Fault α} :
    (∃ e, x = .error e) ↔ ¬∃ a, x = .ok a := by
  cases x <;> simp

namespace Slot

/-- Resources are refused at the first one that is named for a second time. -/
theorem claim_eq_error_iff {p : Nat} {rs seen : List Resource} {index : SortedMap Resource Nat}
    (hseen : seen.Nodup) (hindex : ∀ r, index.get? r = none ↔ r ∉ seen) {e : Fault} :
    claim p rs index = .error e ↔ ∃ r, e = .overlap r ∧ FirstRepeat (seen ++ rs) r := by
  induction rs generalizing seen index with
  | nil =>
    rw [List.append_nil]
    refine ⟨(nomatch ·), fun h => ?_⟩
    obtain ⟨r, -, hr⟩ := h
    exact absurd hseen hr.not_nodup
  | cons r rs ih =>
    rw [claim]
    by_cases hr : r ∈ seen
    · have hfirst : FirstRepeat (seen ++ r :: rs) r := ⟨seen, rs, rfl, hseen, hr⟩
      have hcontains : index.contains r = true := by
        rw [← Bool.not_eq_false, SortedMap.contains_eq_false_iff, hindex]
        exact not_not.2 hr
      rw [if_pos hcontains]
      constructor
      · intro h
        cases h
        exact ⟨r, rfl, hfirst⟩
      · intro h
        obtain ⟨r', rfl, hr'⟩ := h
        rw [hr'.unique hfirst]
    · have hcontains : index.contains r = false := by
        rw [SortedMap.contains_eq_false_iff, hindex]
        exact hr
      have hsplit : seen ++ r :: rs = (seen ++ [r]) ++ rs := by simp
      rw [hcontains, if_neg Bool.false_ne_true, hsplit]
      refine ih ?_ fun j => ?_
      · rw [List.nodup_append]
        refine ⟨hseen, List.nodup_singleton r, ?_⟩
        intro a ha b hb hab
        rw [hab, List.mem_singleton.1 hb] at ha
        exact hr ha
      · rw [SortedMap.get?_insert, List.mem_append, List.mem_singleton]
        by_cases hj : r = j
        · simp [hj]
        · simp [hj, Ne.symm hj, hindex]

variable {ω : Type} [Operation ω]

/-! ### The steps -/

/-- The slots that can be made. -/
inductive Made : Slot ω → Prop
  | ofOperations {ops : List ω} {s : Slot ω} : Slot.ofOperations ops = .ok s → Made s
  | push {s s' : Slot ω} {op : ω} : Made s → s.push op = .ok s' → Made s'
  | pushAll {s s' : Slot ω} {ops : List ω} : Made s → s.pushAll ops = .ok s' → Made s'
  | disjointUnion {s t both : Slot ω} : Made s → Made t → s.disjointUnion t = .ok both → Made both
  | withoutTouching {s : Slot ω} (rs : List Resource) : Made s → Made (s.withoutTouching rs)
  | project {s : Slot ω} (rs : List Resource) : Made s → Made (s.project rs)
  | without {s : Slot ω} (op : ω) : Made s → Made (s.without op)
  | replacing {s s' : Slot ω} {old new : ω} : Made s → s.replacing old new = .ok s' → Made s'

namespace Sound

variable {s t : Slot ω}

/-- A union is made by adding the operations of the second slot. -/
theorem pushAll_of_disjointUnion {both : Slot ω} (h : s.disjointUnion t = .ok both) :
    s.pushAll t.operations = .ok both := by
  rw [Slot.disjointUnion] at h
  split at h
  · cases h
  · exact h

theorem push_eq_error_iff (hs : s.Sound) {op : ω} {e : Fault} :
    s.push op = .error e ↔
      ∃ r, e = .overlap r ∧ FirstRepeat ((s.operations ++ [op]).flatMap resources) r := by
  have hclaim : s.push op = .error e ↔
      claim s.operations.length (resources op) s.index = .error e := by
    rw [Slot.push]
    cases claim s.operations.length (resources op) s.index with
    | error f =>
      show Except.error f = Except.error e ↔ _
      simp
    | ok index =>
      constructor
      · intro h
        cases h
      · intro h
        cases h
  rw [hclaim, List.flatMap_append, List.flatMap_singleton]
  exact claim_eq_error_iff hs.usesOnce fun r => hs.positionOf?_eq_none_iff

/-- Operations are refused at the first resource that is then named for a second time. -/
theorem pushAll_eq_error_iff (hs : s.Sound) {ops : List ω} {e : Fault} :
    s.pushAll ops = .error e ↔
      ∃ r, e = .overlap r ∧ FirstRepeat ((s.operations ++ ops).flatMap resources) r := by
  induction ops generalizing s with
  | nil =>
    refine ⟨(nomatch ·), fun h => ?_⟩
    obtain ⟨r, -, hr⟩ := h
    rw [List.append_nil] at hr
    exact absurd hs.usesOnce hr.not_nodup
  | cons op ops ih =>
    have hsplit : s.operations ++ op :: ops = (s.operations ++ [op]) ++ ops := by simp
    rw [Slot.pushAll, hsplit]
    cases hpush : s.push op with
    | ok mid =>
      rw [← operations_of_push hpush]
      exact ih (hs.push hpush)
    | error f =>
      obtain ⟨r, rfl, hr⟩ := hs.push_eq_error_iff.1 hpush
      have hfirst : FirstRepeat (((s.operations ++ [op]) ++ ops).flatMap resources) r := by
        rw [List.flatMap_append]
        exact hr.append _
      constructor
      · intro h
        cases h
        exact ⟨r, rfl, hfirst⟩
      · intro h
        obtain ⟨r', rfl, hr'⟩ := h
        rw [hr'.unique hfirst]
        rfl

end Sound

/-- Every step keeps the index exact. -/
theorem Made.sound {s : Slot ω} (h : s.Made) : s.Sound := by
  induction h with
  | ofOperations hok => exact Sound.ofOperations hok
  | push _ hok hs => exact hs.push hok
  | pushAll _ hok hs => exact hs.pushAll hok
  | disjointUnion _ _ hok hs _ => exact hs.pushAll (Sound.pushAll_of_disjointUnion hok)
  | withoutTouching rs _ hs => exact hs.filter _
  | project rs _ hs => exact hs.filter _
  | without op _ hs => exact hs.filter _
  | replacing _ hok _ => exact Sound.ofOperations hok

/-! ### Looking through the operations -/

/-- The index of a slot answers like a look through its operations. -/
structure Exact (s : Slot ω) : Prop where
  nodup_resources : ∀ op ∈ s.operations, (resources op).Nodup
  apart : ∀ (p q : Nat) (a b : ω), s.operations[p]? = some a → s.operations[q]? = some b → p ≠ q →
    ∀ r ∈ resources a, r ∉ resources b
  positionOf?_iff : ∀ r p,
    s.positionOf? r = some p ↔ ∃ op, s.operations[p]? = some op ∧ r ∈ resources op
  operationAt?_eq : ∀ r,
    s.operationAt? r = s.operations.find? fun op => (resources op).contains r
  operatesOn_eq : ∀ r, s.operatesOn r = s.operations.any fun op => (resources op).contains r
  touches_eq : ∀ rs, s.touches rs =
    s.operations.any fun op => rs.any fun r => (resources op).contains r

/-- Both slots use the resource, and no smaller one. -/
def LeastShared (s t : Slot ω) (r : Resource) : Prop :=
  (r ∈ s.operations.flatMap resources ∧ r ∈ t.operations.flatMap resources) ∧
    ∀ j, j ∈ s.operations.flatMap resources → j ∈ t.operations.flatMap resources →
      (compare r j).isLE = true

namespace Sound

variable {s t : Slot ω}

theorem operationAt?_eq_find? (hs : s.Sound) (r : Resource) :
    s.operationAt? r = s.operations.find? fun op => (resources op).contains r := by
  rw [operationAt?]
  cases hp : s.positionOf? r with
  | none =>
    have hfree := hs.positionOf?_eq_none_iff.1 hp
    symm
    refine List.find?_eq_none.2 fun op hop hr => hfree ?_
    exact List.mem_flatMap.2 ⟨op, hop, List.contains_iff_mem.1 hr⟩
  | some p =>
    obtain ⟨op, hop, hr⟩ := (hs.positionOf?_iff r p).1 hp
    obtain ⟨hlt, hget⟩ := List.getElem?_eq_some_iff.1 hop
    show s.operations[p]? = _
    rw [hop]
    symm
    -- An operation on the resource at an earlier place would be at the same place.
    refine List.find?_eq_some_iff_getElem.2 ⟨by simpa using hr, p, hlt, hget, fun q hq => ?_⟩
    have hother : r ∉ resources s.operations[q] := by
      intro hr'
      have := hs.eq_of_shared hop (List.getElem?_eq_getElem (by omega)) hr hr'
      omega
    simpa using hother

theorem exact (hs : s.Sound) : s.Exact where
  nodup_resources := (List.nodup_flatMap.1 hs.usesOnce).1
  apart p q a b ha hb hne r hra hrb := hne (hs.eq_of_shared ha hb hra hrb)
  positionOf?_iff := hs.positionOf?_iff
  operationAt?_eq := hs.operationAt?_eq_find?
  operatesOn_eq r := by
    rw [Bool.eq_iff_iff, hs.operatesOn_iff]
    simp
  touches_eq rs := by
    rw [Bool.eq_iff_iff, hs.touches_iff]
    simp [and_comm]

/-- The search goes through the resources of the second slot in their order, so it finds the least
one that both slots use. -/
theorem find?_operatesOn_eq_some_iff (hs : s.Sound) (ht : t.Sound) {r : Resource} :
    t.resourcesInUse.find? s.operatesOn = some r ↔ LeastShared s t r := by
  have huse : ∀ j, s.operatesOn j = true ↔ j ∈ s.operations.flatMap resources := fun j => by
    rw [hs.operatesOn_iff, List.mem_flatMap]
  rw [resourcesInUse, Ordered.find?_eq_some_iff t.index.increasing_keys, ← resourcesInUse]
  simp only [ht.mem_resourcesInUse_iff, huse]
  constructor
  · intro h
    exact ⟨h.1.symm, fun j hs ht => h.2 j ht hs⟩
  · intro h
    exact ⟨h.1.symm, fun j ht hs => h.2 j hs ht⟩

theorem disjointUnion_eq_error_iff (hs : s.Sound) (ht : t.Sound) {e : Fault} :
    s.disjointUnion t = .error e ↔ ∃ r, e = .overlap r ∧ LeastShared s t r := by
  simp only [← hs.find?_operatesOn_eq_some_iff ht]
  cases hfind : t.resourcesInUse.find? s.operatesOn with
  | some r =>
    rw [Slot.disjointUnion, hfind]
    simp [eq_comm]
  | none =>
    have hfree : ∀ r ∈ t.operations.flatMap resources, r ∉ s.operations.flatMap resources := by
      intro r hr hr'
      refine List.find?_eq_none.1 hfind r (ht.mem_resourcesInUse_iff.2 hr) ?_
      exact hs.operatesOn_iff.2 (List.mem_flatMap.1 hr')
    obtain ⟨both, hboth, -⟩ := hs.disjointUnion_eq_ok ht hfree
    rw [hboth]
    simp

theorem exists_disjointUnion_error_iff (hs : s.Sound) (ht : t.Sound) :
    (∃ e, s.disjointUnion t = .error e) ↔
      ∃ r ∈ s.operations.flatMap resources, r ∈ t.operations.flatMap resources := by
  rw [exists_error_iff, not_iff_comm]
  constructor
  · intro hnone
    obtain ⟨both, hboth, -⟩ := hs.disjointUnion_eq_ok ht fun r hr hr' => hnone ⟨r, hr', hr⟩
    exact ⟨both, hboth⟩
  · intro h hshared
    obtain ⟨both, hboth⟩ := h
    obtain ⟨r, hr, hr'⟩ := hshared
    have hnd := hs.pushAll_eq_ok_iff.1 ⟨both, pushAll_of_disjointUnion hboth⟩
    rw [List.flatMap_append] at hnd
    exact (List.nodup_append.1 hnd).2.2 r hr r hr' rfl

end Sound

theorem mem_project_iff {s : Slot ω} {rs : List Resource} {op : ω} :
    op ∈ (s.project rs).operations ↔ op ∈ s.operations ∧ ∃ r ∈ resources op, r ∈ rs := by
  show op ∈ s.operations.filter _ ↔ _
  rw [List.mem_filter, actsOnAny_iff]

theorem mem_withoutTouching_iff {s : Slot ω} {rs : List Resource} {op : ω} :
    op ∈ (s.withoutTouching rs).operations ↔ op ∈ s.operations ∧ ∀ r ∈ resources op, r ∉ rs := by
  show op ∈ s.operations.filter _ ↔ _
  rw [List.mem_filter, Bool.not_eq_true', ← Bool.not_eq_true, actsOnAny_iff]
  simp

/-- **The index of a slot is exact, however the slot has been made.** Operations make a slot unless
a resource is named twice among them; the fault names the first one to come for a second time. Two
slots can be united unless they share a resource; the fault names the least one that they share. A
projection and its counterpart divide the operations of a slot among them. -/
theorem made_exact :
    (∀ s : Slot ω, s.Made → s.Exact) ∧
    (∀ ops : List ω,
      ((∃ e, Slot.ofOperations ops = .error e) ↔ ¬(ops.flatMap resources).Nodup) ∧
      (∀ e, Slot.ofOperations ops = .error e ↔
        ∃ r, e = .overlap r ∧ FirstRepeat (ops.flatMap resources) r) ∧
      ∀ s, Slot.ofOperations ops = .ok s → s.operations = ops) ∧
    (∀ s t : Slot ω, s.Made → t.Made →
      ((∃ e, s.disjointUnion t = .error e) ↔
        ∃ r ∈ s.operations.flatMap resources, r ∈ t.operations.flatMap resources) ∧
      (∀ e, s.disjointUnion t = .error e ↔ ∃ r, e = .overlap r ∧ LeastShared s t r) ∧
      ∀ both, s.disjointUnion t = .ok both → both.operations = s.operations ++ t.operations) ∧
    ∀ (s : Slot ω) (rs : List Resource), s.Made →
      ((s.project rs).operations ++ (s.withoutTouching rs).operations).Perm s.operations ∧
      (∀ op, op ∈ (s.project rs).operations ↔
        op ∈ s.operations ∧ ∃ r ∈ resources op, r ∈ rs) ∧
      ∀ op, op ∈ (s.withoutTouching rs).operations ↔
        op ∈ s.operations ∧ ∀ r ∈ resources op, r ∉ rs := by
  refine ⟨fun s hs => hs.sound.exact, fun ops => ?_, fun s t hs ht => ?_, fun s rs hs => ?_⟩
  · have hfault : ∀ e, Slot.ofOperations ops = .error e ↔
        ∃ r, e = .overlap r ∧ FirstRepeat (ops.flatMap resources) r :=
      fun e => sound_empty.pushAll_eq_error_iff
    refine ⟨?_, hfault, fun s h => operations_of_pushAll h⟩
    rw [exists_error_iff]
    exact not_congr sound_empty.pushAll_eq_ok_iff
  · refine ⟨hs.sound.exists_disjointUnion_error_iff ht.sound,
      fun e => hs.sound.disjointUnion_eq_error_iff ht.sound, fun both h => ?_⟩
    exact operations_of_pushAll (Sound.pushAll_of_disjointUnion h)
  · exact ⟨List.filter_append_perm _ _, fun op => mem_project_iff,
      fun op => mem_withoutTouching_iff⟩

/-- A slot from which an operation has been taken out, and a slot with two operations on resources
of the first. -/
theorem made_exact_renumbered :
    let a : Instruction := { name := "a", resources := [.line 0] }
    let b : Instruction := { name := "b", resources := [.line 1, .line 2] }
    let c : Instruction := { name := "c", resources := [.line 2] }
    let d : Instruction := { name := "d", resources := [.line 5, .line 1] }
    let s : Slot Instruction := ⟨[b], (SortedMap.insert ∅ (.line 1) 0).insert (.line 2) 0⟩
    let t : Slot Instruction :=
      ⟨[c, d], ((SortedMap.insert ∅ (.line 2) 0).insert (.line 5) 1).insert (.line 1) 1⟩
    (s.Made ∧ t.Made) ∧ (s.Exact ∧ s.positionOf? (.line 2) = some 0) ∧
      (Slot.ofOperations [a, c, b] = .error (.overlap (.line 2)) ∧
        FirstRepeat ([a, c, b].flatMap resources) (.line 2)) ∧
      (s.disjointUnion t = .error (.overlap (.line 1)) ∧ LeastShared s t (.line 1)) ∧
      ((t.project [.line 5]).operations ++ (t.withoutTouching [.line 5]).operations).Perm [c, d] := by
  intro a b c d s t
  have hs : s.Made := by
    have hall : (⟨[a, b], ((SortedMap.insert ∅ (.line 0) 0).insert (.line 1) 1).insert (.line 2) 1⟩ :
        Slot Instruction).Made := .ofOperations (show ofOperations [a, b] = .ok _ from rfl)
    exact hall.withoutTouching [.line 0]
  have ht : t.Made := .ofOperations (show ofOperations [c, d] = .ok _ from rfl)
  obtain ⟨hexact, hofOperations, hunion, hsplit⟩ := made_exact (ω := Instruction)
  have hrepeat : Slot.ofOperations [a, c, b] = .error (.overlap (.line 2)) := rfl
  have hshared : s.disjointUnion t = .error (.overlap (.line 1)) := rfl
  refine ⟨⟨hs, ht⟩, ⟨hexact s hs, rfl⟩, ⟨hrepeat, ?_⟩, ⟨hshared, ?_⟩, (hsplit t _ ht).1⟩
  · obtain ⟨r, hr, hfirst⟩ := ((hofOperations _).2.1 _).1 hrepeat
    cases hr
    exact hfirst
  · obtain ⟨r, hr, hleast⟩ := ((hunion s t hs ht).2.1 _).1 hshared
    cases hr
    exact hleast

end Slot

end Timetable
