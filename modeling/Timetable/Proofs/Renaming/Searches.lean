import Timetable.Proofs.Ordered.Renamed
import Timetable.Proofs.Reach.Exact
import Timetable.Proofs.Renaming.Carry
import Timetable.Proofs.Schedule.Room

/-!
# Searches and reach under new names

When every operation acts on `f r` instead of `r`, and `f` keeps resources apart, the operation on
a resource stands where the one on its new name stands. So the slots that are touched are the same,
and what stops an advance stops it as before. The new names may be in quite another order, in which
a walk then meets operations, but where an advance comes to its end does not depend on that.

* `Renames`: operations changed by a function act on the new names.
* `renamedBy`: the slots with the changed operations.
* `Renames.operationAt?_eq`, `Renames.nextSlot_eq`, `Renames.prevSlot_eq`, `Renames.nextUses_eq`:
  the operation on a resource, and the searches for slots.
* `Renames.stops_iff`, `Renames.endsAt_iff`: what stops a resource, and where it comes to its end.
* `Renames.reachableFrontier_eq`: how far a frontier can advance.
-/

namespace Timetable

variable {ω : Type} [Operation ω]

/-- The slots are sound, `f` keeps resources apart, and `m` changes each operation into one that
acts on the resources `f r` instead of `r`. -/
structure Renames (f : Resource → Resource) (m : ω → ω) (slots : List (Slot ω)) : Prop where
  sound : ∀ slot ∈ slots, slot.Sound
  injective : Function.Injective f
  resources_eq : ∀ op, resources (m op) = (resources op).map f

def renamedBy (m : ω → ω) (slots : List (Slot ω)) : List (Slot ω) :=
  slots.map (Slot.mapOperations m)

theorem length_renamedBy {m : ω → ω} {slots : List (Slot ω)} :
    (renamedBy m slots).length = slots.length := List.length_map _

theorem operationsAt_renamedBy (m : ω → ω) (slots : List (Slot ω)) (i : Nat) :
    operationsAt (renamedBy m slots) i = (operationsAt slots i).map m := by
  rw [operationsAt, operationsAt, renamedBy, List.getElem?_map]
  cases slots[i]? <;> rfl

namespace Renames

variable {f : Resource → Resource} {m : ω → ω} {slots : List (Slot ω)}

theorem sound_renamedBy (h : Renames f m slots) : ∀ slot ∈ renamedBy m slots, slot.Sound := by
  intro slot' hslot'
  obtain ⟨slot, hslot, rfl⟩ := List.mem_map.1 hslot'
  exact ((h.sound slot hslot).apart h.injective).sound_map h.resources_eq

/-- A changed operation acts on the new names of the resources that the operation acts on. -/
theorem mem_resources_iff (h : Renames f m slots) {op : ω} {r : Resource} :
    f r ∈ resources (m op) ↔ r ∈ resources op := by
  rw [h.resources_eq, List.mem_map_of_injective h.injective]

/-! ### Searches -/

theorem positionOf?_eq (h : Renames f m slots) {slot : Slot ω} (hslot : slot ∈ slots)
    (r : Resource) :
    (slot.mapOperations m).positionOf? (f r) = slot.positionOf? r := by
  have hsound := ((h.sound slot hslot).apart h.injective).sound_map h.resources_eq
  refine Option.ext fun p => ?_
  rw [hsound.positionOf?_iff, (h.sound slot hslot).positionOf?_iff, Slot.operations_mapOperations]
  simp only [List.getElem?_map, Option.map_eq_some_iff, exists_exists_and_eq_and,
    h.mem_resources_iff]

theorem operationAt?_eq (h : Renames f m slots) {s s' : Schedule ω} (hs : s.slots = slots)
    (hs' : s'.slots = renamedBy m slots) (r : Resource) (i : Nat) :
    s'.operationAt? (f r) i = (s.operationAt? r i).map m := by
  rw [Schedule.operationAt?, Schedule.operationAt?, hs, hs', renamedBy, List.getElem?_map]
  cases hslot : slots[i]? with
  | none => rfl
  | some slot =>
    rw [Option.map_some, Option.bind_some, Option.bind_some, Slot.operationAt?, Slot.operationAt?,
      h.positionOf?_eq (List.mem_of_getElem? hslot)]
    cases slot.positionOf? r with
    | none => rfl
    | some p => exact List.getElem?_map

theorem touches_eq (h : Renames f m slots) (rs : List Resource) :
    ∀ slot ∈ slots, (slot.mapOperations m).touches (rs.map f) = slot.touches rs := by
  intro slot hslot
  rw [Slot.touches, Slot.touches, List.any_map]
  refine congrArg rs.any (funext fun r => ?_)
  exact congrArg Option.isSome (h.positionOf?_eq hslot r)

theorem nextUse?_eq (h : Renames f m slots) (rs : List Resource) (start : Nat) :
    nextUse? (renamedBy m slots) (rs.map f) start = nextUse? slots rs start :=
  nextUse?_map (h.touches_eq rs) start

theorem nextSlot_eq (h : Renames f m slots) (rs : List Resource) (start : Nat)
    (distance : Option Int) :
    nextSlot (renamedBy m slots) (rs.map f) start distance = nextSlot slots rs start distance :=
  nextSlot_map (h.touches_eq rs) start distance

theorem prevSlot_eq (h : Renames f m slots) (rs : List Resource) (stop : Option Nat)
    (distance : Option Int) :
    prevSlot (renamedBy m slots) (rs.map f) stop distance = prevSlot slots rs stop distance :=
  prevSlot_map (h.touches_eq rs) stop distance

theorem nextUses_eq (h : Renames f m slots) (rs : List Resource) (start : Nat) :
    nextUses (renamedBy m slots) (rs.map f) start = (nextUses slots rs start).mapKeys f := by
  refine SortedMap.ext_get? fun k => Option.ext fun v => ?_
  rw [SortedMap.get?_mapKeys_eq_some_iff h.injective]
  simp only [Schedule.get?_nextUses, Option.ite_none_right_eq_some, List.mem_map, length_renamedBy]
  constructor
  · rintro ⟨⟨r, hr, rfl⟩, hv⟩
    exact ⟨r, rfl, hr, by rw [← h.nextUse?_eq]; exact hv⟩
  · rintro ⟨r, rfl, hr, hv⟩
    exact ⟨⟨r, hr, rfl⟩, by rw [← h.nextUse?_eq] at hv; exact hv⟩

/-! ### How far a frontier can advance -/

section Reach

variable {start : Frontier} {blocks blocks' : ω → Bool}
  (hblocks : ∀ op ∈ slots.flatMap Slot.operations, blocks' (m op) = blocks op)

include hblocks

/-- A changed operation stops its resources when the operation does. -/
theorem stops_iff (h : Renames f m slots) {i : Nat} {op : ω} (hop : op ∈ operationsAt slots i) :
    Stops (renamedBy m slots) (start.mapKeys f) blocks' i (m op) ↔
      Stops slots start blocks i op := by
  have hget := SortedMap.get?_mapKeys h.injective start
  have hagree : ∀ {i op}, op ∈ operationsAt slots i → blocks' (m op) = blocks op := by
    intro i op hop
    obtain ⟨slot, hslot, hmem⟩ := mem_operationsAt.1 hop
    exact hblocks op (List.mem_flatMap.2 ⟨slot, List.mem_of_getElem? hslot, hmem⟩)
  constructor
  · intro hstop
    generalize hop' : m op = op' at hstop
    induction hstop generalizing op with
    | blocker hb =>
      subst hop'
      exact .blocker (hagree hop ▸ hb)
    | unstarted hr' hbehind =>
      subst hop'
      rw [h.resources_eq] at hr'
      obtain ⟨r, hr, rfl⟩ := List.mem_map.1 hr'
      exact .unstarted hr (hget r ▸ hbehind)
    | stopped hr' hfirst hj hji hmem' hre _ ih =>
      subst hop'
      rw [h.resources_eq] at hr'
      obtain ⟨r, hr, rfl⟩ := List.mem_map.1 hr'
      rw [operationsAt_renamedBy] at hmem'
      obtain ⟨earlier, hmem, rfl⟩ := List.mem_map.1 hmem'
      exact .stopped hr (hget r ▸ hfirst) hj hji hmem (h.mem_resources_iff.1 hre) (ih hmem rfl)
  · intro hstop
    induction hstop with
    | blocker hb => exact .blocker ((hagree hop).trans hb)
    | unstarted hr hbehind =>
      exact .unstarted (h.mem_resources_iff.2 hr) (hget _ ▸ hbehind)
    | stopped hr hfirst hj hji hmem hre _ ih =>
      have hmem' := operationsAt_renamedBy m slots _ ▸ List.mem_map_of_mem hmem
      exact .stopped (h.mem_resources_iff.2 hr) ((hget _).trans hfirst) hj hji hmem'
        (h.mem_resources_iff.2 hre) (ih hmem)

theorem stopsAt_iff (h : Renames f m slots) {r : Resource} {i : Nat} :
    StopsAt (renamedBy m slots) (start.mapKeys f) blocks' (f r) i ↔
      StopsAt slots start blocks r i := by
  rw [StopsAt, StopsAt, operationsAt_renamedBy]
  simp only [List.mem_map, exists_exists_and_eq_and]
  refine exists_congr fun op => and_congr_right fun hop => ?_
  rw [h.mem_resources_iff, h.stops_iff hblocks hop]

theorem endsAt_iff (h : Renames f m slots) {r : Resource} {first last : Nat} :
    EndsAt (renamedBy m slots) (start.mapKeys f) blocks' (f r) first last ↔
      EndsAt slots start blocks r first last := by
  simp only [EndsAt, h.stopsAt_iff hblocks, length_renamedBy]

/-- A frontier under new names advances as far as the frontier. -/
theorem reachableFrontier_eq (h : Renames f m slots) :
    reachableFrontier (renamedBy m slots) (start.mapKeys f) blocks' =
      (reachableFrontier slots start blocks).mapKeys f := by
  refine SortedMap.ext_get? fun k => Option.ext fun last => ?_
  rw [get?_reachableFrontier_eq_some_iff h.sound_renamedBy,
    SortedMap.get?_mapKeys_eq_some_iff h.injective]
  simp only [SortedMap.get?_mapKeys_eq_some_iff h.injective,
    get?_reachableFrontier_eq_some_iff h.sound]
  constructor
  · rintro ⟨first, ⟨r, rfl, hfirst⟩, hend⟩
    exact ⟨r, rfl, first, hfirst, (h.endsAt_iff hblocks).1 hend⟩
  · rintro ⟨r, rfl, first, hfirst, hend⟩
    exact ⟨first, ⟨r, rfl, hfirst⟩, (h.endsAt_iff hblocks).2 hend⟩

end Reach

end Renames

end Timetable
