import Timetable.Proofs.Partition.Reassembly
import Timetable.Proofs.Reach.Exact

/-!
# Searches and reach on a factor

An operation on a resource of an independent set acts on resources of that set alone. So when slots
are cut down to the operations on the set, whatever concerns its resources is still there: the slots
that touch some of them are the same, and what stops an advance over them stops it as before.

* `Separate`: slots in which operations act on resources of a set alone, or on none of them.
* `factorOn`: the slots cut down to the operations on a set.
* `Separate.nextUse?_eq`, `Separate.nextSlot_eq`, `Separate.prevSlot_eq`, `Separate.nextUses_eq`:
  the searches for slots.
* `Separate.stops_iff`, `Separate.endsAt_iff`: what stops a resource, and where it comes to its end.
* `Separate.reachableFrontier_eq`: how far a frontier can advance.
-/

namespace Timetable

variable {ω : Type} [Operation ω]

/-- The slots are sound, and an operation on a resource of the set acts on no other ones. -/
structure Separate (P : SortedSet Resource) (slots : List (Slot ω)) : Prop where
  sound : ∀ slot ∈ slots, slot.Sound
  closed : ∀ slot ∈ slots, ∀ op ∈ slot.operations, ∀ r ∈ resources op, r ∈ P →
    ∀ r' ∈ resources op, r' ∈ P

def factorOn (P : SortedSet Resource) (slots : List (Slot ω)) : List (Slot ω) :=
  slots.map fun slot => slot.project P.toList

section Cut

variable {P : SortedSet Resource} {slots : List (Slot ω)}

theorem length_factorOn : (factorOn P slots).length = slots.length := List.length_map _

theorem getElem?_factorOn (x : Nat) :
    (factorOn P slots)[x]? = slots[x]?.map fun slot => slot.project P.toList := List.getElem?_map

theorem mem_operationsAt_factorOn {x : Nat} {op : ω} :
    op ∈ operationsAt (factorOn P slots) x ↔
      op ∈ operationsAt slots x ∧ ∃ r ∈ resources op, r ∈ P := by
  rw [factorOn, operationsAt_map_project, List.mem_filter, Slot.actsOnAny_iff]
  rfl

theorem Slot.Sound.project {slot : Slot ω} (hs : slot.Sound) (rs : List Resource) :
    (slot.project rs).Sound := hs.filter _

/-- A slot is touched by resources of the set as before. -/
theorem Slot.Sound.touches_project {slot : Slot ω} (hs : slot.Sound) {rs : List Resource}
    (hrs : ∀ r ∈ rs, r ∈ P) : (slot.project P.toList).touches rs = slot.touches rs := by
  rw [Bool.eq_iff_iff, (hs.project _).touches_iff, hs.touches_iff]
  constructor
  · intro h
    obtain ⟨op, hop, hacts⟩ := h
    exact ⟨op, (List.mem_filter.1 hop).1, hacts⟩
  · intro h
    obtain ⟨op, hop, r, hr, hrs'⟩ := h
    have hacts : Slot.actsOnAny P.toList op = true := Slot.actsOnAny_iff.2 ⟨r, hr, hrs r hrs'⟩
    exact ⟨op, List.mem_filter.2 ⟨hop, hacts⟩, r, hr, hrs'⟩

end Cut

namespace Separate

variable {P : SortedSet Resource} {slots : List (Slot ω)}

theorem sound_factorOn (h : Separate P slots) : ∀ slot ∈ factorOn P slots, slot.Sound := by
  intro slot hslot
  obtain ⟨whole, hwhole, rfl⟩ := List.mem_map.1 hslot
  exact (h.sound whole hwhole).project _

/-- An operation on a resource of the set acts on its resources alone. -/
theorem mem_of_shared (h : Separate P slots) {x : Nat} {op : ω} (hop : op ∈ operationsAt slots x)
    {r : Resource} (hr : r ∈ resources op) (hrP : r ∈ P) : ∀ r' ∈ resources op, r' ∈ P := by
  obtain ⟨slot, hslot, hmem⟩ := mem_operationsAt.1 hop
  exact h.closed slot (List.mem_of_getElem? hslot) op hmem r hr hrP

/-! ### Searches -/

section Searches

variable {rs : List Resource} (hrs : ∀ r ∈ rs, r ∈ P)

include hrs

theorem touches_eq (h : Separate P slots) :
    ∀ slot ∈ slots, (slot.project P.toList).touches rs = slot.touches rs :=
  fun slot hslot => (h.sound slot hslot).touches_project hrs

theorem nextUse?_eq (h : Separate P slots) (start : Nat) :
    nextUse? (factorOn P slots) rs start = nextUse? slots rs start :=
  nextUse?_map (h.touches_eq hrs) start

theorem nextSlot_eq (h : Separate P slots) (start : Nat) (distance : Option Int) :
    nextSlot (factorOn P slots) rs start distance = nextSlot slots rs start distance :=
  nextSlot_map (h.touches_eq hrs) start distance

theorem prevSlot_eq (h : Separate P slots) (stop : Option Nat) (distance : Option Int) :
    prevSlot (factorOn P slots) rs stop distance = prevSlot slots rs stop distance :=
  prevSlot_map (h.touches_eq hrs) stop distance

theorem nextUses_eq (h : Separate P slots) (start : Nat) :
    nextUses (factorOn P slots) rs start = nextUses slots rs start := by
  rw [nextUses, nextUses, length_factorOn]
  refine congrArg SortedMap.ofList (List.map_congr_left fun r hr => ?_)
  have hsingle : ∀ r' ∈ [r], r' ∈ P := by
    intro r' hr'
    rw [List.mem_singleton.1 hr']
    exact hrs r hr
  rw [h.nextUse?_eq hsingle]

end Searches

/-! ### How far a frontier can advance -/

section Reach

variable {start : Frontier} {blocks : ω → Bool}

/-- An operation on the set stops its resources in the factor as it does in the whole. -/
theorem stops_iff (h : Separate P slots) {i : Nat} {op : ω} (hop : ∀ r ∈ resources op, r ∈ P) :
    Stops (factorOn P slots) start blocks i op ↔ Stops slots start blocks i op := by
  constructor
  · intro hstop
    induction hstop with
    | blocker hb => exact .blocker hb
    | unstarted hr hbehind => exact .unstarted hr hbehind
    | stopped hr hget hj hji hmem hre _ ih =>
      have hmem := (mem_operationsAt_factorOn.1 hmem).1
      exact .stopped hr hget hj hji hmem hre (ih (h.mem_of_shared hmem hre (hop _ hr)))
  · intro hstop
    induction hstop with
    | blocker hb => exact .blocker hb
    | unstarted hr hbehind => exact .unstarted hr hbehind
    | stopped hr hget hj hji hmem hre _ ih =>
      -- What has stopped the resource acts on the set, because the resource is in it.
      have hmem' := mem_operationsAt_factorOn.2 ⟨hmem, _, hre, hop _ hr⟩
      exact .stopped hr hget hj hji hmem' hre (ih (h.mem_of_shared hmem hre (hop _ hr)))

theorem stopsAt_iff (h : Separate P slots) {r : Resource} (hr : r ∈ P) {i : Nat} :
    StopsAt (factorOn P slots) start blocks r i ↔ StopsAt slots start blocks r i := by
  constructor
  · intro hx
    obtain ⟨op, hop, hro, hstop⟩ := hx
    have hmem := (mem_operationsAt_factorOn.1 hop).1
    exact ⟨op, hmem, hro, (h.stops_iff (h.mem_of_shared hmem hro hr)).1 hstop⟩
  · intro hx
    obtain ⟨op, hop, hro, hstop⟩ := hx
    have hall := h.mem_of_shared hop hro hr
    exact ⟨op, mem_operationsAt_factorOn.2 ⟨hop, r, hro, hr⟩, hro, (h.stops_iff hall).2 hstop⟩

theorem endsAt_iff (h : Separate P slots) {r : Resource} (hr : r ∈ P) {first last : Nat} :
    EndsAt (factorOn P slots) start blocks r first last ↔
      EndsAt slots start blocks r first last := by
  simp only [EndsAt, h.stopsAt_iff hr, length_factorOn]

end Reach

end Separate

/-- A frontier of resources of the set advances in the factor as in the whole. -/
theorem Separate.reachableFrontier_eq {P : SortedSet Resource} {slots : List (Slot ω)}
    (h : Separate P slots) {start : Frontier} (hstart : ∀ r ∈ start.keys, r ∈ P)
    (blocks : ω → Bool) :
    reachableFrontier (factorOn P slots) start blocks = reachableFrontier slots start blocks := by
  refine SortedMap.ext_get? fun r => Option.ext fun last => ?_
  rw [get?_reachableFrontier_eq_some_iff h.sound_factorOn, get?_reachableFrontier_eq_some_iff h.sound]
  refine exists_congr fun first => and_congr_right fun hget => ?_
  exact h.endsAt_iff (hstart r (SortedMap.mem_keys_iff.2 ⟨first, hget⟩))

end Timetable
