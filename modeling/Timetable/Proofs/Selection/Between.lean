import Timetable.Proofs.Queue.Related
import Timetable.Proofs.Reach.Exact
import Timetable.Proofs.Slot.Parts
import Timetable.Schedule.Selection

/-!
# What lies between a frontier and its reach

Between two frontiers an operation is listed for one of its resources: it is enough that this one
has begun and not yet ended. Where the second frontier is the reach of the first one, all resources
of the operation are in the same position, for an operation that lets one of them pass lets all of
them pass.

* `Window`: the slots between two frontiers on one resource.
* `placesBetween`, `operationsBetween_eq_drain`: where operations are found, and how they are listed.
* `mem_placesBetween_iff`, `mem_operationsBetween_iff`: what is found and listed between them.
* `mem_operationsBetween_reach_iff`: up to the reach these are the operations that nothing stops.
* `lt_reach_of_not_stops`: the resources of such an operation have all begun, and none has ended.
* `reach_closed`: so nothing crosses the border of the region.
-/

namespace Timetable

variable {ω : Type} [Operation ω] {slots : List (Slot ω)}

/-! ### Between two frontiers -/

theorem mem_placesOn_iff (hs : ∀ slot ∈ slots, slot.Sound) {involved : SortedSet Resource}
    {omitCrossing : Bool} {r : Resource} {first last i p : Nat} :
    (i, p) ∈ placesOn slots involved omitCrossing r first last ↔ first ≤ i ∧ i < last ∧
      ∃ op, (operationsAt slots i)[p]? = some op ∧ r ∈ resources op ∧
        (omitCrossing = true → ∀ x ∈ resources op, x ∈ involved) := by
  have hcrosses : ∀ op : ω, (omitCrossing && !(resources op).all involved.contains) = true ↔
      ¬(omitCrossing = true → ∀ x ∈ resources op, x ∈ involved) := by
    intro op
    simp only [Bool.and_eq_true, Bool.not_eq_true', List.all_eq_false, SortedSet.contains_iff]
    push Not
    rfl
  rw [placesOn, List.mem_filterMap]
  constructor
  · rintro ⟨index, hindex, h⟩
    obtain ⟨slot, hslot, h⟩ := Option.bind_eq_some_iff.1 h
    obtain ⟨position, hposition, h⟩ := Option.bind_eq_some_iff.1 h
    obtain ⟨op, hop, h⟩ := Option.bind_eq_some_iff.1 h
    split at h
    · cases h
    · rename_i hkept
      cases h
      have hsound := hs slot (List.mem_of_getElem? hslot)
      obtain ⟨op', hop', hr⟩ := (hsound.positionOf?_iff r p).1 hposition
      obtain rfl : op = op' := Option.some.inj (hop.symm.trans hop')
      rw [List.mem_range'_1] at hindex
      refine ⟨hindex.1, by omega, op, ?_, hr, ?_⟩
      · rw [operationsAt_of_getElem? hslot]
        exact hop
      · exact not_not.1 fun hcross => hkept ((hcrosses op).2 hcross)
  · rintro ⟨hfirst, hlast, op, hop, hr, hkept⟩
    have hlen := lt_length_of_mem_operationsAt (List.mem_of_getElem? hop)
    refine ⟨i, List.mem_range'_1.2 ⟨hfirst, by omega⟩, ?_⟩
    obtain ⟨slot, hslot, hposition⟩ := (usesAt_iff hs).1 ⟨op, hop, hr⟩
    rw [operationsAt_of_getElem? hslot] at hop
    simp only [hslot, hposition, hop, Option.bind_eq_bind, Option.bind_some]
    exact if_neg fun hcross => (hcrosses op).1 hcross hkept

/-- A frontier names the resource, and on it the slot lies between the two frontiers. A resource
that `start` leaves out begins at zero, one that `stop` leaves out ends at the length. -/
def Window (start stop : Frontier) (length : Nat) (r : Resource) (i : Nat) : Prop :=
  r ∈ start.keys ++ stop.keys ∧ start.getD r 0 ≤ i ∧ i < stop.getD r length

/-- The places at which operations are found between two frontiers, resource by resource. -/
def placesBetween (slots : List (Slot ω)) (start stop : Frontier) (omitCrossing : Bool) :
    List (Nat × Nat) :=
  let involved : SortedSet Resource := .ofList (start.keys ++ stop.keys)
  involved.toList.flatMap fun r =>
    placesOn slots involved omitCrossing r (start.getD r 0) (stop.getD r slots.length)

/-- What stands at these places is served slot by slot. -/
theorem operationsBetween_eq_drain (slots : List (Slot ω)) (start stop : Frontier)
    (omitCrossing : Bool) :
    operationsBetween slots start stop omitCrossing =
      ((placesBetween slots start stop omitCrossing).foldl
        (fun (q : BucketQueue Nat) e => (q.enqueue e.1 e.2).2) (.empty true)).drain.filterMap
        fun e => (operationAtPlace? slots e.1 e.2).map (e.1, ·) :=
  rfl

theorem mem_placesBetween_iff (hs : ∀ slot ∈ slots, slot.Sound) {start stop : Frontier}
    {omitCrossing : Bool} {i p : Nat} :
    (i, p) ∈ placesBetween slots start stop omitCrossing ↔
      ∃ op, (operationsAt slots i)[p]? = some op ∧
        (∃ r ∈ resources op, Window start stop slots.length r i) ∧
        (omitCrossing = true → ∀ r ∈ resources op, r ∈ start.keys ++ stop.keys) := by
  have hinvolved : ∀ r, r ∈ SortedSet.ofList (start.keys ++ stop.keys) ↔
      r ∈ start.keys ++ stop.keys := fun r => SortedSet.mem_ofList
  simp only [placesBetween, List.mem_flatMap, mem_placesOn_iff hs, hinvolved]
  constructor
  · rintro ⟨r, hr, hfirst, hlast, op, hop, hrop, hkept⟩
    exact ⟨op, hop, ⟨r, hrop, (hinvolved r).1 hr, hfirst, hlast⟩, hkept⟩
  · rintro ⟨op, hop, ⟨r, hrop, hr, hfirst, hlast⟩, hkept⟩
    exact ⟨r, (hinvolved r).2 hr, hfirst, hlast, op, hop, hrop, hkept⟩

/-- An operation is listed between two frontiers when one of its resources has begun and not yet
ended. Crossing operations are left out where that is asked for. -/
theorem mem_operationsBetween_iff (hs : ∀ slot ∈ slots, slot.Sound) {start stop : Frontier}
    {omitCrossing : Bool} {e : Nat × ω} :
    e ∈ operationsBetween slots start stop omitCrossing ↔ e.2 ∈ operationsAt slots e.1 ∧
      (∃ r ∈ resources e.2, Window start stop slots.length r e.1) ∧
      (omitCrossing = true → ∀ r ∈ resources e.2, r ∈ start.keys ++ stop.keys) := by
  obtain ⟨i, op⟩ := e
  rw [operationsBetween_eq_drain, List.mem_filterMap]
  simp only [BucketQueue.mem_drain_foldl_enqueue]
  constructor
  · rintro ⟨⟨index, p⟩, hplace, h⟩
    obtain ⟨op', hop', hselected⟩ := (mem_placesBetween_iff hs).1 hplace
    rw [operationAtPlace?, ← getElem?_operationsAt, hop'] at h
    cases h
    exact ⟨List.mem_of_getElem? hop', hselected⟩
  · rintro ⟨hop, hselected⟩
    obtain ⟨p, hp⟩ := List.mem_iff_getElem?.1 hop
    refine ⟨(i, p), (mem_placesBetween_iff hs).2 ⟨op, hp, hselected⟩, ?_⟩
    rw [operationAtPlace?, ← getElem?_operationsAt, hp]
    rfl

/-- Where the operations on the resource act on the involved resources alone, none of them
crosses. -/
theorem placesOn_omitCrossing (hs : ∀ slot ∈ slots, slot.Sound) {involved : SortedSet Resource}
    {r : Resource} {first last : Nat}
    (h : ∀ i, first ≤ i → i < last → ∀ op ∈ operationsAt slots i, r ∈ resources op →
      ∀ x ∈ resources op, x ∈ involved) :
    placesOn slots involved true r first last = placesOn slots involved false r first last := by
  rw [placesOn, placesOn]
  refine List.filterMap_congr fun index hindex => ?_
  refine Option.bind_congr fun slot hslot => Option.bind_congr fun p hposition => ?_
  refine Option.bind_congr fun op hop => ?_
  rw [List.mem_range'_1] at hindex
  obtain ⟨a, ha, hra⟩ := (usesAt_iff hs).2 ⟨slot, hslot, hposition⟩
  rw [operationsAt_of_getElem? hslot, hop] at ha
  cases ha
  have hmem : op ∈ operationsAt slots index := by
    rw [operationsAt_of_getElem? hslot]
    exact List.mem_of_getElem? hop
  have hall : (resources op).all involved.contains = true := by
    refine List.all_eq_true.2 fun x hx => SortedSet.contains_iff.2 ?_
    exact h index hindex.1 (by omega) op hmem hra x hx
  rw [hall]
  rfl

/-- So where every operation that is listed acts on the resources of the frontiers alone, leaving
out the crossing operations leaves out none. -/
theorem operationsBetween_omitCrossing (hs : ∀ slot ∈ slots, slot.Sound) {start stop : Frontier}
    (h : ∀ e ∈ operationsBetween slots start stop false, ∀ r ∈ resources e.2,
      r ∈ start.keys ++ stop.keys) :
    operationsBetween slots start stop true = operationsBetween slots start stop false := by
  have hplaces : placesBetween slots start stop true = placesBetween slots start stop false := by
    refine List.flatMap_congr fun r hr => ?_
    refine placesOn_omitCrossing hs fun i hfirst hlast op hop hrop x hx => ?_
    have hmem : (i, op) ∈ operationsBetween slots start stop false := by
      refine (mem_operationsBetween_iff hs).2 ⟨hop, ?_, fun h => absurd h Bool.false_ne_true⟩
      exact ⟨r, hrop, SortedSet.mem_ofList.1 hr, hfirst, hlast⟩
    exact SortedSet.mem_ofList.2 (h _ hmem x hx)
  rw [operationsBetween_eq_drain, operationsBetween_eq_drain, hplaces]

/-! ### Between a frontier and its reach -/

section Reach

variable {start : Frontier} {blocks : ω → Bool} {i : Nat} {op : ω}

/-- The resources of an operation that nothing stops have begun, and end only behind it. -/
theorem lt_reach_of_not_stops (hs : ∀ slot ∈ slots, slot.Sound) (hop : op ∈ operationsAt slots i)
    (hpass : ¬Stops slots start blocks i op) {r : Resource} (hr : r ∈ resources op) :
    ∃ first last, start.get? r = some first ∧
      (reachableFrontier slots start blocks).get? r = some last ∧ first ≤ i ∧ i < last := by
  obtain ⟨first, hle, hget, hfree⟩ := (not_stops_iff.1 hpass).2 r hr
  obtain ⟨last, hlast, -, hend⟩ := exists_get?_reachableFrontier hs start blocks hget
  refine ⟨first, last, hget, hlast, hle, Nat.lt_of_not_le fun hli => ?_⟩
  obtain ⟨p, hp⟩ := List.mem_iff_getElem?.1 hop
  rcases hend with hleast | ⟨hend, -⟩
  · obtain ⟨hfirst, hstop⟩ := hleast.1
    rcases Nat.lt_or_eq_of_le hli with hlt | rfl
    · exact hfree last hfirst hlt hstop
    · exact hpass ((stopsAt_iff hs hp hr).1 hstop)
  · have hlen := lt_length_of_mem_operationsAt hop
    omega

/-- Up to the reach of a frontier those operations are listed that nothing stops. -/
theorem mem_operationsBetween_reach_iff (hs : ∀ slot ∈ slots, slot.Sound) {e : Nat × ω} :
    e ∈ operationsBetween slots start (reachableFrontier slots start blocks) false ↔
      e.2 ∈ operationsAt slots e.1 ∧ resources e.2 ≠ [] ∧ ¬Stops slots start blocks e.1 e.2 := by
  rw [mem_operationsBetween_iff hs]
  refine and_congr_right fun hop => ⟨?_, ?_⟩
  · rintro ⟨⟨r, hr, hrkey, hfirst, hlast⟩, -⟩
    refine ⟨List.ne_nil_of_mem hr, fun hstop => ?_⟩
    rw [keys_reachableFrontier hs start blocks, List.mem_append, or_self] at hrkey
    obtain ⟨first, hget⟩ := SortedMap.mem_keys_iff.1 hrkey
    obtain ⟨last, hget', -, hend⟩ := exists_get?_reachableFrontier hs start blocks hget
    rw [SortedMap.getD, hget, Option.getD_some] at hfirst
    rw [SortedMap.getD, hget', Option.getD_some] at hlast
    exact hend.not_stopsAt hfirst hlast ⟨e.2, hop, hr, hstop⟩
  · rintro ⟨hne, hpass⟩
    obtain ⟨r, hr⟩ := List.exists_mem_of_ne_nil _ hne
    obtain ⟨first, last, hget, hget', hle, hlt⟩ := lt_reach_of_not_stops hs hop hpass hr
    refine ⟨⟨r, hr, ?_, ?_, ?_⟩, fun hfalse => absurd hfalse Bool.false_ne_true⟩
    · exact List.mem_append_left _ (SortedMap.mem_keys_iff.2 ⟨first, hget⟩)
    · rwa [SortedMap.getD, hget]
    · rwa [SortedMap.getD, hget']

/-- **The region that a frontier can reach is closed.** No operation between a frontier and its
reach is a blocker, and each of its resources has begun and ends only behind it. So no operation
crosses the border of the region. -/
theorem reach_closed (hs : ∀ slot ∈ slots, slot.Sound) (start : Frontier) (blocks : ω → Bool) :
    (∀ e ∈ operationsBetween slots start (reachableFrontier slots start blocks) false,
      blocks e.2 = false ∧ ∀ r ∈ resources e.2, ∃ first last, start.get? r = some first ∧
        (reachableFrontier slots start blocks).get? r = some last ∧ first ≤ e.1 ∧ e.1 < last) ∧
    operationsBetween slots start (reachableFrontier slots start blocks) true =
      operationsBetween slots start (reachableFrontier slots start blocks) false := by
  have hinside : ∀ e ∈ operationsBetween slots start (reachableFrontier slots start blocks) false,
      blocks e.2 = false ∧ ∀ r ∈ resources e.2, ∃ first last, start.get? r = some first ∧
        (reachableFrontier slots start blocks).get? r = some last ∧ first ≤ e.1 ∧ e.1 < last := by
    intro e he
    obtain ⟨hop, -, hpass⟩ := (mem_operationsBetween_reach_iff hs).1 he
    exact ⟨(not_stops_iff.1 hpass).1, fun r hr => lt_reach_of_not_stops hs hop hpass hr⟩
  refine ⟨hinside, operationsBetween_omitCrossing hs fun e he r hr => ?_⟩
  obtain ⟨first, -, hget, -⟩ := (hinside e he).2 r hr
  exact List.mem_append_left _ (SortedMap.mem_keys_iff.2 ⟨first, hget⟩)

/-- The second gate acts on a resource that starts at its slot, and the third one is stopped by a
blocker on another resource. -/
theorem reach_closed_staggered :
    let cz : Instruction := { name := "cz", resources := [.line 0, .line 1] }
    let m : Instruction := { name := "m", resources := [.line 2] }
    let swap : Instruction := { name := "swap", resources := [.line 1, .line 2] }
    let slots := [[m], [cz], [swap]].map Slot.ofApart
    let start : Frontier := SortedMap.ofList [(.line 0, 0), (.line 1, 1), (.line 2, 0)]
    let blocks : Instruction → Bool := fun op => op.name == "m"
    let stop := reachableFrontier slots start blocks
    ((∀ slot ∈ slots, slot.Sound) ∧
      (operationsBetween slots start stop false).map (fun e => (e.1, e.2.name)) = [(1, "cz")]) ∧
    (∀ e ∈ operationsBetween slots start stop false, blocks e.2 = false ∧
      ∀ r ∈ resources e.2, ∃ first last, start.get? r = some first ∧ stop.get? r = some last ∧
        first ≤ e.1 ∧ e.1 < last) ∧
    operationsBetween slots start stop true = operationsBetween slots start stop false := by
  intro cz m swap slots start blocks stop
  have hs : ∀ slot ∈ slots, slot.Sound := Slot.sound_map_ofApart (by decide)
  exact ⟨⟨hs, by decide +kernel⟩, reach_closed hs start blocks⟩

end Reach

end Timetable
