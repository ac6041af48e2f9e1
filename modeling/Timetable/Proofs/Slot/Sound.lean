import Timetable.Proofs.Ordered.Lookup
import Timetable.Slot
import Mathlib.Data.List.Nodup

/-!
# Sound slots

A slot is sound when no resource is named twice by its operations and its index gives exactly the
place of the operation on each resource. Slots are only ever made from the empty slot by adding
operations, so the slots of a schedule are sound.

* `Slot.Sound`: the invariant.
* `Slot.Sound.operatesOn_iff`, `Slot.Sound.touches_iff`: the index answers like the operations.
* `Slot.Sound.ext`: sound slots with the same operations are the same slot.
* `Slot.Sound.push_eq_ok_iff`, `Slot.Sound.pushAll_eq_ok_iff`: operations join a sound slot exactly
  when no resource would be named twice, and `Slot.Sound.pushAll` keeps the invariant.
* `Slot.Sound.disjointUnion_eq_ok`: the union of two sound slots that share no resource.
-/

namespace Timetable

/-- Two steps after each other succeed when both do. -/
theorem bind_eq_ok_iff {ε α β : Type} {x : Except ε α} {f : α → Except ε β} {b : β} :
    x >>= f = .ok b ↔ ∃ a, x = .ok a ∧ f a = .ok b := by
  cases x with
  | error e =>
    constructor
    · exact fun h => nomatch h
    · intro h
      obtain ⟨a, ha, -⟩ := h
      cases ha
  | ok a =>
    constructor
    · exact fun h => ⟨a, rfl, h⟩
    · intro h
      obtain ⟨a', ha, h⟩ := h
      cases ha
      exact h

/-- Two steps after each other fail when the first one does, or else the second one. -/
theorem bind_eq_error_iff {ε α β : Type} {x : Except ε α} {f : α → Except ε β} {e : ε} :
    x >>= f = .error e ↔ x = .error e ∨ ∃ a, x = .ok a ∧ f a = .error e := by
  cases x with
  | error e' =>
    constructor
    · intro h
      cases h
      exact .inl rfl
    · intro h
      rcases h with h | ⟨a, ha, -⟩
      · cases h
        rfl
      · cases ha
  | ok a =>
    constructor
    · exact fun h => .inr ⟨a, rfl, h⟩
    · intro h
      rcases h with h | ⟨a', ha, h⟩
      · cases h
      · cases ha
        exact h

theorem mapError_eq_ok_iff {ε ε' α : Type} {x : Except ε α} {f : ε → ε'} {a : α} :
    x.mapError f = .ok a ↔ x = .ok a := by
  cases x <;> simp [Except.mapError]

theorem mapError_eq_error_iff {ε ε' α : Type} {x : Except ε α} {f : ε → ε'} {e : ε'} :
    x.mapError f = .error e ↔ ∃ e', x = .error e' ∧ f e' = e := by
  cases x <;> simp [Except.mapError]

namespace Slot

variable {ω : Type} [Operation ω]

/-- No resource is named twice, and the index is exact. -/
structure Sound (s : Slot ω) : Prop where
  /-- No resource is named twice, be it by one operation or by two. -/
  usesOnce : (s.operations.flatMap resources).Nodup
  /-- The index gives the place of the operation on each resource. -/
  positionOf?_iff : ∀ r p,
    s.positionOf? r = some p ↔ ∃ op, s.operations[p]? = some op ∧ r ∈ resources op

theorem sound_empty : (empty : Slot ω).Sound where
  usesOnce := List.nodup_nil
  positionOf?_iff r p := by simp [empty, positionOf?]

namespace Sound

variable {s t : Slot ω}

/-- A resource is in use when some operation acts on it. -/
theorem operatesOn_iff (hs : s.Sound) {r : Resource} :
    s.operatesOn r = true ↔ ∃ op ∈ s.operations, r ∈ resources op := by
  rw [operatesOn, SortedMap.contains_iff]
  constructor
  · intro h
    obtain ⟨p, hp⟩ := h
    obtain ⟨op, hop, hr⟩ := (hs.positionOf?_iff r p).1 hp
    exact ⟨op, List.mem_of_getElem? hop, hr⟩
  · intro h
    obtain ⟨op, hop, hr⟩ := h
    obtain ⟨p, hp⟩ := List.mem_iff_getElem?.1 hop
    exact ⟨p, (hs.positionOf?_iff r p).2 ⟨op, hp, hr⟩⟩

theorem touches_iff (hs : s.Sound) {rs : List Resource} :
    s.touches rs = true ↔ ∃ op ∈ s.operations, ∃ r ∈ resources op, r ∈ rs := by
  rw [touches, List.any_eq_true]
  constructor
  · intro hx
    obtain ⟨r, hr, h⟩ := hx
    obtain ⟨op, hop, hro⟩ := hs.operatesOn_iff.1 h
    exact ⟨op, hop, r, hro, hr⟩
  · intro h
    obtain ⟨op, hop, r, hro, hr⟩ := h
    exact ⟨r, hr, hs.operatesOn_iff.2 ⟨op, hop, hro⟩⟩

/-- Operations at two places of a slot share no resource. -/
theorem eq_of_shared (hs : s.Sound) {p q : Nat} {a b : ω} {r : Resource}
    (ha : s.operations[p]? = some a) (hb : s.operations[q]? = some b) (hra : r ∈ resources a)
    (hrb : r ∈ resources b) : p = q := by
  have hp := (hs.positionOf?_iff r p).2 ⟨a, ha, hra⟩
  have hq := (hs.positionOf?_iff r q).2 ⟨b, hb, hrb⟩
  exact Option.some.inj (hp.symm.trans hq)

/-- The operation on a resource is the one that acts on it. -/
theorem operationAt?_eq_some_iff (hs : s.Sound) {r : Resource} {op : ω} :
    s.operationAt? r = some op ↔ op ∈ s.operations ∧ r ∈ resources op := by
  rw [operationAt?, Option.bind_eq_some_iff]
  constructor
  · rintro ⟨p, hp, hop⟩
    obtain ⟨a, ha, hr⟩ := (hs.positionOf?_iff r p).1 hp
    obtain rfl := Option.some.inj (ha.symm.trans hop)
    exact ⟨List.mem_of_getElem? hop, hr⟩
  · rintro ⟨hop, hr⟩
    obtain ⟨p, hp⟩ := List.mem_iff_getElem?.1 hop
    exact ⟨p, (hs.positionOf?_iff r p).2 ⟨op, hp, hr⟩, hp⟩

/-- The operations of a sound slot determine its index. -/
theorem ext (hs : s.Sound) (ht : t.Sound) (h : s.operations = t.operations) : s = t := by
  have hindex : s.index = t.index := by
    refine SortedMap.ext_get? fun r => Option.ext fun p => ?_
    show s.positionOf? r = some p ↔ t.positionOf? r = some p
    rw [hs.positionOf?_iff, ht.positionOf?_iff, h]
  cases s
  cases t
  cases h
  cases hindex
  rfl

end Sound

/-! ### Adding operations -/

theorem getElem?_snoc_eq_some {α : Type} {l : List α} {x a : α} {p : Nat} :
    (l ++ [x])[p]? = some a ↔ l[p]? = some a ∨ p = l.length ∧ x = a := by
  rcases Nat.lt_trichotomy p l.length with h | h | h
  · rw [List.getElem?_append_left h]
    exact (or_iff_left fun hp => absurd hp.1 (Nat.ne_of_lt h)).symm
  · simp [h]
  · have hlen : (l ++ [x]).length ≤ p := by
      rw [List.length_append, List.length_singleton]
      omega
    rw [List.getElem?_eq_none hlen, List.getElem?_eq_none (Nat.le_of_lt h)]
    simp [Nat.ne_of_gt h]

theorem claim_eq_ok_iff {p : Nat} {rs : List Resource} {index : SortedMap Resource Nat} :
    (∃ index', claim p rs index = .ok index') ↔ rs.Nodup ∧ ∀ r ∈ rs, index.get? r = none := by
  induction rs generalizing index with
  | nil => simp [claim]
  | cons r rs ih =>
    rw [claim]
    by_cases h : index.contains r = true
    · rw [if_pos h]
      obtain ⟨v, hv⟩ := SortedMap.contains_iff.1 h
      simp [hv]
    · rw [if_neg h, ih]
      have hr : index.get? r = none := SortedMap.contains_eq_false_iff.1 (by simpa using h)
      simp only [SortedMap.get?_insert, List.nodup_cons, List.forall_mem_cons, hr, true_and]
      constructor
      · intro h
        obtain ⟨hnd, hfree⟩ := h
        refine ⟨⟨fun hmem => ?_, hnd⟩, fun j hj => ?_⟩
        · simpa using hfree r hmem
        · have := hfree j hj
          split at this <;> simp_all
      · intro h
        obtain ⟨⟨hmem, hnd⟩, hfree⟩ := h
        refine ⟨hnd, fun j hj => ?_⟩
        have hne : r ≠ j := fun he => hmem (he ▸ hj)
        rw [if_neg hne]
        exact hfree j hj

theorem get?_of_claim {p : Nat} {rs : List Resource} {index index' : SortedMap Resource Nat}
    (h : claim p rs index = .ok index') (j : Resource) :
    index'.get? j = if j ∈ rs then some p else index.get? j := by
  induction rs generalizing index with
  | nil =>
    cases h
    simp
  | cons r rs ih =>
    rw [claim] at h
    split at h
    · cases h
    · rw [ih h, SortedMap.get?_insert]
      by_cases hj : j ∈ rs
      · simp [hj]
      · by_cases hr : r = j
        · simp [hr]
        · simp [hj, hr, Ne.symm hr]

theorem push_eq_ok {s s' : Slot ω} {op : ω} (h : s.push op = .ok s') :
    ∃ index, claim s.operations.length (resources op) s.index = .ok index ∧
      s' = ⟨s.operations ++ [op], index⟩ := by
  obtain ⟨index, hclaim, h⟩ := bind_eq_ok_iff.1 h
  cases h
  exact ⟨index, hclaim, rfl⟩

theorem operations_of_push {s s' : Slot ω} {op : ω} (h : s.push op = .ok s') :
    s'.operations = s.operations ++ [op] := by
  obtain ⟨index, -, rfl⟩ := push_eq_ok h
  rfl

theorem pushAll_cons {s s' : Slot ω} {op : ω} {ops : List ω} :
    s.pushAll (op :: ops) = .ok s' ↔ ∃ mid, s.push op = .ok mid ∧ mid.pushAll ops = .ok s' :=
  bind_eq_ok_iff

theorem operations_of_pushAll {s s' : Slot ω} {ops : List ω} (h : s.pushAll ops = .ok s') :
    s'.operations = s.operations ++ ops := by
  induction ops generalizing s with
  | nil =>
    cases h
    simp
  | cons op ops ih =>
    obtain ⟨mid, hpush, hrest⟩ := pushAll_cons.1 h
    rw [ih hrest, operations_of_push hpush, List.append_assoc, List.singleton_append]

namespace Sound

variable {s t : Slot ω}

/-- The index is free of a resource when no operation acts on it. -/
theorem positionOf?_eq_none_iff (hs : s.Sound) {r : Resource} :
    s.positionOf? r = none ↔ r ∉ s.operations.flatMap resources := by
  have h : s.operatesOn r = false ↔ s.positionOf? r = none := SortedMap.contains_eq_false_iff
  rw [← h, ← Bool.not_eq_true, hs.operatesOn_iff, List.mem_flatMap]

/-- An operation joins a sound slot exactly when no resource is then named twice. -/
theorem push_eq_ok_iff (hs : s.Sound) {op : ω} :
    (∃ s', s.push op = .ok s') ↔ ((s.operations ++ [op]).flatMap resources).Nodup := by
  have hclaim : (∃ s', s.push op = .ok s') ↔
      ∃ index, claim s.operations.length (resources op) s.index = .ok index := by
    constructor
    · intro hx
      obtain ⟨s', h⟩ := hx
      obtain ⟨index, hc, -⟩ := push_eq_ok h
      exact ⟨index, hc⟩
    · intro h
      obtain ⟨index, hc⟩ := h
      refine ⟨⟨s.operations ++ [op], index⟩, ?_⟩
      rw [push, hc]
      rfl
  rw [hclaim, claim_eq_ok_iff, List.flatMap_append, List.flatMap_singleton, List.nodup_append]
  constructor
  · intro h
    obtain ⟨hnd, hfree⟩ := h
    refine ⟨hs.usesOnce, hnd, ?_⟩
    intro r hr _ hro heq
    subst heq
    exact hs.positionOf?_eq_none_iff.1 (hfree r hro) hr
  · intro h
    obtain ⟨-, hnd, hdisj⟩ := h
    exact ⟨hnd, fun r hr => hs.positionOf?_eq_none_iff.2 fun hmem => hdisj r hmem r hr rfl⟩

theorem push (hs : s.Sound) {op : ω} {s' : Slot ω} (h : s.push op = .ok s') : s'.Sound := by
  have hnd := hs.push_eq_ok_iff.1 ⟨s', h⟩
  obtain ⟨index, hc, rfl⟩ := push_eq_ok h
  refine ⟨hnd, fun r p => ?_⟩
  have hmem : r ∈ resources op → r ∉ s.operations.flatMap resources := by
    rw [List.flatMap_append, List.flatMap_singleton, List.nodup_append] at hnd
    exact fun hr hold => hnd.2.2 r hold r hr rfl
  show index.get? r = some p ↔ ∃ a, (s.operations ++ [op])[p]? = some a ∧ r ∈ resources a
  rw [get?_of_claim hc]
  simp only [getElem?_snoc_eq_some]
  by_cases hr : r ∈ resources op
  · rw [if_pos hr]
    constructor
    · intro hx
      cases hx
      exact ⟨op, .inr ⟨rfl, rfl⟩, hr⟩
    · intro hx
      rcases hx with ⟨a, ha | ⟨rfl, rfl⟩, hra⟩
      · exact absurd (List.mem_flatMap.2 ⟨a, List.mem_of_getElem? ha, hra⟩) (hmem hr)
      · rfl
  · rw [if_neg hr]
    refine (hs.positionOf?_iff r p).trans ⟨?_, ?_⟩
    · intro hx
      obtain ⟨a, ha, hra⟩ := hx
      exact ⟨a, .inl ha, hra⟩
    · intro hx
      rcases hx with ⟨a, ha | ⟨-, rfl⟩, hra⟩
      · exact ⟨a, ha, hra⟩
      · exact absurd hra hr

/-- Operations join a sound slot exactly when no resource is then named twice. -/
theorem pushAll_eq_ok_iff (hs : s.Sound) {ops : List ω} :
    (∃ s', s.pushAll ops = .ok s') ↔ ((s.operations ++ ops).flatMap resources).Nodup := by
  induction ops generalizing s with
  | nil => exact ⟨fun _ => by simpa using hs.usesOnce, fun _ => ⟨s, rfl⟩⟩
  | cons op ops ih =>
    have hsplit : s.operations ++ op :: ops = (s.operations ++ [op]) ++ ops := by simp
    constructor
    · intro hx
      obtain ⟨s', h⟩ := hx
      obtain ⟨mid, hpush, hrest⟩ := pushAll_cons.1 h
      rw [hsplit, ← operations_of_push hpush]
      exact (ih (hs.push hpush)).1 ⟨s', hrest⟩
    · intro hnd
      rw [hsplit] at hnd
      have hhead : ((s.operations ++ [op]).flatMap resources).Nodup := by
        rw [List.flatMap_append] at hnd
        exact (List.nodup_append.1 hnd).1
      obtain ⟨mid, hpush⟩ := hs.push_eq_ok_iff.2 hhead
      rw [← operations_of_push hpush] at hnd
      obtain ⟨s', hrest⟩ := (ih (hs.push hpush)).2 hnd
      exact ⟨s', pushAll_cons.2 ⟨mid, hpush, hrest⟩⟩

theorem pushAll (hs : s.Sound) {ops : List ω} {s' : Slot ω} (h : s.pushAll ops = .ok s') :
    s'.Sound := by
  induction ops generalizing s with
  | nil =>
    cases h
    exact hs
  | cons op ops ih =>
    obtain ⟨mid, hpush, hrest⟩ := pushAll_cons.1 h
    exact ih (hs.push hpush) hrest

theorem ofOperations {ops : List ω} (h : ofOperations ops = .ok s) : s.Sound :=
  sound_empty.pushAll h

theorem mem_resourcesInUse_iff (hs : s.Sound) {r : Resource} :
    r ∈ s.resourcesInUse ↔ r ∈ s.operations.flatMap resources := by
  rw [resourcesInUse, SortedMap.mem_keys_iff, ← SortedMap.contains_iff, ← operatesOn,
    hs.operatesOn_iff, List.mem_flatMap]

/-- Sound slots that share no resource can be united. -/
theorem disjointUnion_eq_ok (hs : s.Sound) (ht : t.Sound)
    (h : ∀ r ∈ t.operations.flatMap resources, r ∉ s.operations.flatMap resources) :
    ∃ both, s.disjointUnion t = .ok both ∧ both.Sound ∧
      both.operations = s.operations ++ t.operations := by
  have hnone : t.resourcesInUse.find? s.operatesOn = none := by
    refine List.find?_eq_none.2 fun r hr huse => ?_
    refine h r (ht.mem_resourcesInUse_iff.1 hr) ?_
    exact List.mem_flatMap.2 (hs.operatesOn_iff.1 huse)
  have hnd : ((s.operations ++ t.operations).flatMap resources).Nodup := by
    rw [List.flatMap_append, List.nodup_append]
    refine ⟨hs.usesOnce, ht.usesOnce, ?_⟩
    intro r hr _ hrt heq
    subst heq
    exact h r hrt hr
  obtain ⟨both, hboth⟩ := hs.pushAll_eq_ok_iff.2 hnd
  refine ⟨both, ?_, hs.pushAll hboth, operations_of_pushAll hboth⟩
  rw [disjointUnion, hnone]
  exact hboth

end Sound

end Slot

end Timetable
