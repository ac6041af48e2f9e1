import Timetable.Proofs.Schedule.Layout
import Timetable.Schedule.Reach
import Mathlib.Order.Bounds.Basic

/-!
# Where an advance comes to its end

What stops an advance is a property of the schedule, the starting frontier and the blockers alone,
and does not depend on the order in which operations are met. It is defined here by recursion on
the slot; the walk is compared with it elsewhere.

* `nextUse?_eq_some_iff`, `nextUse?_eq_none_iff`: the search for a slot.
* `nextUse?_map`, `nextSlot_map`, `prevSlot_map`: searches in slots that are touched alike.
* `Stops`, `StopsAt`: an operation stops its resources, and a resource is stopped in a slot.
* `EndsAt`, `EndsAt.unique`: the index at which a resource comes to its end;
  `EndsAt.not_stopsAt`: nothing stops it before.
* `UsesAt`, `Walk.nextPlace?_eq_some_iff`: the next operation on a resource.
-/

namespace Timetable

variable {ω : Type}

/-! ### The next slot on some resources -/

section Search

variable {slots : List (Slot ω)}

theorem nextUse?_eq_none_iff {rs : List Resource} {first : Nat} :
    nextUse? slots rs first = none ↔
      ∀ j slot, first ≤ j → slots[j]? = some slot → slot.touches rs = false := by
  rw [nextUse?, Option.map_eq_none_iff, List.findIdx?_eq_none_iff]
  constructor
  · intro h j slot hj hslot
    refine h slot (List.mem_iff_getElem?.2 ⟨j - first, ?_⟩)
    rw [List.getElem?_drop, Nat.add_sub_cancel' hj]
    exact hslot
  · intro h slot hmem
    obtain ⟨k, hk⟩ := List.mem_iff_getElem?.1 hmem
    rw [List.getElem?_drop] at hk
    exact h (first + k) slot (Nat.le_add_right first k) hk

theorem nextUse?_eq_some_iff {rs : List Resource} {first i : Nat} :
    nextUse? slots rs first = some i ↔ first ≤ i ∧
      (∃ slot, slots[i]? = some slot ∧ slot.touches rs = true) ∧
      ∀ j slot, first ≤ j → j < i → slots[j]? = some slot → slot.touches rs = false := by
  rw [nextUse?, Option.map_eq_some_iff]
  constructor
  · intro h
    obtain ⟨k, hk, rfl⟩ := h
    obtain ⟨hlt, htouch, hbefore⟩ := List.findIdx?_eq_some_iff_getElem.1 hk
    refine ⟨Nat.le_add_left first k, ⟨(slots.drop first)[k], ?_, htouch⟩, ?_⟩
    · rw [Nat.add_comm, ← List.getElem?_drop]
      exact List.getElem?_eq_getElem hlt
    · intro j slot hj hji hslot
      have hdrop : (slots.drop first)[j - first]? = some slot := by
        rw [List.getElem?_drop, Nat.add_sub_cancel' hj]
        exact hslot
      obtain ⟨hlen, rfl⟩ := List.getElem?_eq_some_iff.1 hdrop
      exact Bool.not_eq_true _ ▸ hbefore (j - first) (by omega)
  · intro h
    obtain ⟨hle, ⟨slot, hslot, htouch⟩, hbefore⟩ := h
    have hdrop : (slots.drop first)[i - first]? = some slot := by
      rw [List.getElem?_drop, Nat.add_sub_cancel' hle]
      exact hslot
    obtain ⟨hlen, hget⟩ := List.getElem?_eq_some_iff.1 hdrop
    refine ⟨i - first, List.findIdx?_eq_some_iff_getElem.2 ⟨hlen, hget ▸ htouch, ?_⟩,
      Nat.sub_add_cancel hle⟩
    intro k hk
    have hslot' : slots[first + k]? = some (slots.drop first)[k] := by
      rw [← List.getElem?_drop]
      exact List.getElem?_eq_getElem _
    exact Bool.not_eq_true _ ▸ hbefore (first + k) _ (Nat.le_add_right first k) (by omega) hslot'

/-! Searches look at slots only through the question whether the resources touch them. -/

section Alike

variable {change : Slot ω → Slot ω} {rs rs' : List Resource}
  (h : ∀ slot ∈ slots, (change slot).touches rs' = slot.touches rs)

include h

theorem nextUse?_map (start : Nat) :
    nextUse? (slots.map change) rs' start = nextUse? slots rs start := by
  have htouch : ∀ slot ∈ slots.drop start, (change slot).touches rs' = slot.touches rs :=
    fun slot hslot => h slot (List.mem_of_mem_drop hslot)
  rw [nextUse?, nextUse?, ← List.map_drop, List.findIdx?_map]
  congr 1
  generalize slots.drop start = rest at htouch
  induction rest with
  | nil => rfl
  | cons slot rest ih =>
    obtain ⟨hslot, hrest⟩ := List.forall_mem_cons.1 htouch
    rw [List.findIdx?_cons, List.findIdx?_cons, Function.comp_apply, hslot, ih hrest]

theorem touchingIn_map (lo hi : Int) :
    touchingIn (slots.map change) rs' lo hi = touchingIn slots rs lo hi := by
  rw [touchingIn, touchingIn, List.length_map]
  refine List.filter_congr fun i _ => ?_
  rw [List.getElem?_map]
  cases hslot : slots[i]? with
  | none => rfl
  | some slot =>
    rw [Option.map_some, Option.any_some, Option.any_some, h slot (List.mem_of_getElem? hslot)]

theorem nextSlot_map (start : Nat) (distance : Option Int) :
    nextSlot (slots.map change) rs' start distance = nextSlot slots rs start distance := by
  simp only [nextSlot, List.length_map, touchingIn_map h]

theorem prevSlot_map (stop : Option Nat) (distance : Option Int) :
    prevSlot (slots.map change) rs' stop distance = prevSlot slots rs stop distance := by
  simp only [prevSlot, List.length_map, touchingIn_map h]

end Alike

theorem touches_singleton_iff {slot : Slot ω} {r : Resource} :
    slot.touches [r] = true ↔ ∃ p, slot.positionOf? r = some p := by
  rw [Slot.touches, List.any_cons, List.any_nil, Bool.or_false]
  exact SortedMap.contains_iff

end Search

variable [Operation ω]

/-! ### What stops a resource -/

section Stopping

variable (slots : List (Slot ω)) (start : Frontier) (blocks : ω → Bool)

/-- The operation of the slot stops its resources. -/
inductive Stops : Nat → ω → Prop
  /-- It is a blocker. -/
  | blocker {i : Nat} {op : ω} : blocks op = true → Stops i op
  /-- One of its resources does not start, or starts only behind it. -/
  | unstarted {i : Nat} {op : ω} {r : Resource} : r ∈ resources op →
      (∀ first, start.get? r = some first → i < first) → Stops i op
  /-- One of its resources has been stopped before. -/
  | stopped {i j : Nat} {op earlier : ω} {r : Resource} {first : Nat} : r ∈ resources op →
      start.get? r = some first → first ≤ j → j < i → earlier ∈ operationsAt slots j →
      r ∈ resources earlier → Stops j earlier → Stops i op

def StopsAt (r : Resource) (i : Nat) : Prop :=
  ∃ op ∈ operationsAt slots i, r ∈ resources op ∧ Stops slots start blocks i op

/-- A resource that starts at `first` comes to its end at `last`: where it is stopped first, or at
the end of the schedule. -/
def EndsAt (r : Resource) (first last : Nat) : Prop :=
  IsLeast {i | first ≤ i ∧ StopsAt slots start blocks r i} last ∨
    last = max slots.length first ∧ ∀ i, first ≤ i → ¬StopsAt slots start blocks r i

end Stopping

variable {slots : List (Slot ω)} {start : Frontier} {blocks : ω → Bool}

/-- An operation lets its resources pass when it is no blocker, and all of them have started and
have come as far as its slot. -/
theorem not_stops_iff {i : Nat} {op : ω} :
    ¬Stops slots start blocks i op ↔ blocks op = false ∧ ∀ r ∈ resources op,
      ∃ first ≤ i, start.get? r = some first ∧
        ∀ j, first ≤ j → j < i → ¬StopsAt slots start blocks r j := by
  constructor
  · intro h
    refine ⟨?_, fun r hr => ?_⟩
    · cases hb : blocks op with
      | false => rfl
      | true => exact absurd (.blocker hb) h
    · by_cases hstart : ∃ first ≤ i, start.get? r = some first
      · obtain ⟨first, hle, hget⟩ := hstart
        refine ⟨first, hle, hget, ?_⟩
        intro j hj hji h
        obtain ⟨earlier, hmem, hre, hstop⟩ := h
        exact h (.stopped hr hget hj hji hmem hre hstop)
      · refine absurd (.unstarted hr fun first hget => ?_) h
        exact Nat.lt_of_not_le fun hle => hstart ⟨first, hle, hget⟩
  · intro h hstop
    obtain ⟨hblocks, hall⟩ := h
    cases hstop with
    | blocker hb =>
      rw [hblocks] at hb
      cases hb
    | unstarted hr hbehind =>
      obtain ⟨first, hle, hget, -⟩ := hall _ hr
      exact absurd (hbehind first hget) (Nat.not_lt.2 hle)
    | stopped hr hget hj hji hmem hre hstop =>
      obtain ⟨first, -, hget', hfree⟩ := hall _ hr
      rw [hget] at hget'
      cases hget'
      exact hfree _ hj hji ⟨_, hmem, hre, hstop⟩

theorem EndsAt.first_le {r : Resource} {first last : Nat}
    (h : EndsAt slots start blocks r first last) : first ≤ last := by
  rcases h with h | ⟨rfl, -⟩
  · exact h.1.1
  · exact Nat.le_max_right _ _

/-- Before its end a resource is not stopped. -/
theorem EndsAt.not_stopsAt {r : Resource} {first last i : Nat}
    (h : EndsAt slots start blocks r first last) (hfirst : first ≤ i) (hlast : i < last) :
    ¬StopsAt slots start blocks r i := by
  intro hstop
  rcases h with h | ⟨-, hfree⟩
  · exact Nat.not_lt.2 (h.2 ⟨hfirst, hstop⟩) hlast
  · exact hfree i hfirst hstop

/-- A resource comes to one end only. -/
theorem EndsAt.unique {r : Resource} {first last last' : Nat}
    (h : EndsAt slots start blocks r first last) (h' : EndsAt slots start blocks r first last') :
    last = last' := by
  rcases h with h | ⟨h, hfree⟩ <;> rcases h' with h' | ⟨h', hfree'⟩
  · exact h.unique h'
  · exact absurd h.1.2 (hfree' last h.1.1)
  · exact absurd h'.1.2 (hfree last' h'.1.1)
  · exact h.trans h'.symm

/-! ### The operation on a resource -/

def UsesAt (slots : List (Slot ω)) (r : Resource) (i p : Nat) : Prop :=
  ∃ op, (operationsAt slots i)[p]? = some op ∧ r ∈ resources op

/-- In a sound slot there is at most one operation on a resource. -/
theorem place_unique (hs : ∀ slot ∈ slots, slot.Sound) {r : Resource} {i p q : Nat} {a b : ω}
    (ha : (operationsAt slots i)[p]? = some a) (hb : (operationsAt slots i)[q]? = some b)
    (hra : r ∈ resources a) (hrb : r ∈ resources b) : p = q := by
  obtain ⟨slot, hslot, -⟩ := mem_operationsAt.1 (List.mem_of_getElem? ha)
  rw [operationsAt_of_getElem? hslot] at ha hb
  exact (hs slot (List.mem_of_getElem? hslot)).eq_of_shared ha hb hra hrb

/-- A resource is stopped in a slot when the operation on it there stops. -/
theorem stopsAt_iff (hs : ∀ slot ∈ slots, slot.Sound) {r : Resource} {i p : Nat} {op : ω}
    (hop : (operationsAt slots i)[p]? = some op) (hr : r ∈ resources op) :
    StopsAt slots start blocks r i ↔ Stops slots start blocks i op := by
  constructor
  · intro h
    obtain ⟨op', hmem, hr', hstop⟩ := h
    obtain ⟨q, hq⟩ := List.mem_iff_getElem?.1 hmem
    rw [place_unique hs hop hq hr hr', hq] at hop
    cases hop
    exact hstop
  · exact fun hstop => ⟨op, List.mem_of_getElem? hop, hr, hstop⟩

theorem not_stopsAt_of_unused {r : Resource} {i : Nat} (h : ∀ p, ¬UsesAt slots r i p) :
    ¬StopsAt slots start blocks r i := by
  intro hx
  obtain ⟨op, hmem, hr, -⟩ := hx
  obtain ⟨p, hp⟩ := List.mem_iff_getElem?.1 hmem
  exact h p ⟨op, hp, hr⟩

/-- In sound slots the index gives the place of the operation on a resource. -/
theorem usesAt_iff (hs : ∀ slot ∈ slots, slot.Sound) {r : Resource} {i p : Nat} :
    UsesAt slots r i p ↔ ∃ slot, slots[i]? = some slot ∧ slot.positionOf? r = some p := by
  constructor
  · intro h
    obtain ⟨op, hop, hr⟩ := h
    obtain ⟨slot, hslot, -⟩ := mem_operationsAt.1 (List.mem_of_getElem? hop)
    rw [operationsAt_of_getElem? hslot] at hop
    have hsound := hs slot (List.mem_of_getElem? hslot)
    exact ⟨slot, hslot, (hsound.positionOf?_iff r p).2 ⟨op, hop, hr⟩⟩
  · intro h
    obtain ⟨slot, hslot, hp⟩ := h
    obtain ⟨op, hop, hr⟩ :=
      ((hs slot (List.mem_of_getElem? hslot)).positionOf?_iff r p).1 hp
    rw [← operationsAt_of_getElem? hslot] at hop
    exact ⟨op, hop, hr⟩

/-! ### The next operation on a resource -/

/-- The place that is found is that of the first operation on the resource. -/
theorem Walk.nextPlace?_eq_some (hs : ∀ slot ∈ slots, slot.Sound) {r : Resource} {first i p : Nat}
    (h : nextPlace? slots r first = some (i, p)) :
    first ≤ i ∧ UsesAt slots r i p ∧ ∀ j, first ≤ j → j < i → ∀ q, ¬UsesAt slots r j q := by
  rw [nextPlace?] at h
  obtain ⟨index, hnext, h⟩ := Option.bind_eq_some_iff.1 h
  obtain ⟨slot, hslot, h⟩ := Option.bind_eq_some_iff.1 h
  obtain ⟨position, hposition, h⟩ := Option.bind_eq_some_iff.1 h
  cases h
  obtain ⟨hle, -, hbefore⟩ := nextUse?_eq_some_iff.1 hnext
  refine ⟨hle, (usesAt_iff hs).2 ⟨slot, hslot, hposition⟩, fun j hj hji q hq => ?_⟩
  obtain ⟨slot', hslot', hq⟩ := (usesAt_iff hs).1 hq
  have hfree := hbefore j slot' hj hji hslot'
  rw [touches_singleton_iff.2 ⟨q, hq⟩] at hfree
  cases hfree

/-- Where no place is found, there is no operation on the resource any more. -/
theorem Walk.nextPlace?_eq_none (hs : ∀ slot ∈ slots, slot.Sound) {r : Resource} {first : Nat}
    (h : nextPlace? slots r first = none) : ∀ j, first ≤ j → ∀ q, ¬UsesAt slots r j q := by
  intro j hj q hq
  obtain ⟨slot, hslot, hq⟩ := (usesAt_iff hs).1 hq
  rw [nextPlace?] at h
  cases hnext : nextUse? slots [r] first with
  | none =>
    have hfree := nextUse?_eq_none_iff.1 hnext j slot hj hslot
    rw [touches_singleton_iff.2 ⟨q, hq⟩] at hfree
    cases hfree
  | some i =>
    obtain ⟨-, ⟨slot', hslot', htouch⟩, -⟩ := nextUse?_eq_some_iff.1 hnext
    obtain ⟨p, hp⟩ := touches_singleton_iff.1 htouch
    rw [hnext, Option.bind_eq_bind, Option.bind_some, hslot', Option.bind_eq_bind, Option.bind_some,
      hp] at h
    cases h

end Timetable
