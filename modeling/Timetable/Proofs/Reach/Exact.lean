import Timetable.Instruction
import Timetable.Proofs.Reach.Walk

/-!
# The reachable frontier is exact

While the walk runs, every resource of the starting frontier either has come to its end, where it
stays, or waits at its next operation: it has met all its operations before that one, and none of
them has stopped it. So the operations that the walk lets pass are those that nothing stops.

* `Walk.Tracks`: how far one resource has come.
* `Walk.Holds`: the invariant of the walk, with the places that have been met.
* `Walk.Holds.meet`, `Walk.Holds.run`: a step and a run keep it.
* `reachableFrontier_exact`: the theorem.
-/

namespace Timetable

namespace Walk

variable {ω : Type} [Operation ω]
variable {slots : List (Slot ω)} {start : Frontier} {blocks : ω → Bool}

/-- How far a resource has come that starts at `first`. Before `point` it has met all its operations
and none has stopped it. At `point` its next operation waits, or it has come to its end. -/
structure Tracks (slots : List (Slot ω)) (start : Frontier) (blocks : ω → Bool)
    (met : List (Nat × Nat)) (w : Walk) (r : Resource) (first point : Nat) : Prop where
  first_le : first ≤ point
  passed : ∀ i, first ≤ i → i < point → ¬StopsAt slots start blocks r i
  met : ∀ i p, first ≤ i → i < point → UsesAt slots r i p → (i, p) ∈ met
  here : (w.stops.get? r = none ∧ ∃ p, UsesAt slots r point p ∧ p ∈ w.queue.waitingAt point) ∨
    w.stops.get? r = some point ∧
      (StopsAt slots start blocks r point ∨ point = max slots.length first)

/-- The invariant of the walk. -/
structure Holds (slots : List (Slot ω)) (start : Frontier) (blocks : ω → Bool)
    (met : List (Nat × Nat)) (w : Walk) : Prop where
  queued : Queued slots met w.queue
  active : ∀ r ∈ w.active, w.stops.get? r = none ∧
    ∃ first, start.get? r = some first ∧ ∀ i p, p ∈ w.queue.waitingAt i → first ≤ i
  outside : ∀ r, start.get? r = none → w.stops.get? r = none
  tracks : ∀ r first, start.get? r = some first →
    ∃ point, Tracks slots start blocks met w r first point

/-- A resource goes on from an index before which it has met all its operations. -/
theorem Advanced.tracks {es : List (Resource × Nat)} {w w' : Walk} {met : List (Nat × Nat)}
    (h : Advanced slots start es w w') (hs : ∀ slot ∈ slots, slot.Sound) {r : Resource}
    {first k : Nat} (hget : start.get? r = some first) (hfirst : first ≤ k) (hmem : (r, k) ∈ es)
    (hone : ∀ e ∈ es, e.1 = r → e.2 = k) (hstops : w.stops.get? r = none)
    (hpassed : ∀ i, first ≤ i → i < k → ¬StopsAt slots start blocks r i)
    (hmet : ∀ i p, first ≤ i → i < k → UsesAt slots r i p → (i, p) ∈ met) :
    ∃ point, Tracks slots start blocks met w' r first point := by
  cases hnext : nextPlace? slots r k with
  | some place =>
    obtain ⟨i, p⟩ := place
    obtain ⟨hle, huse, hfree⟩ := nextPlace?_eq_some hs hnext
    refine ⟨i, Nat.le_trans hfirst hle, fun j hj hji => ?_, fun j q hj hji hq => ?_,
      .inl ⟨?_, p, huse, ?_⟩⟩
    · rcases Nat.lt_or_ge j k with hjk | hkj
      · exact hpassed j hj hjk
      · exact not_stopsAt_of_unused (hfree j hkj hji)
    · rcases Nat.lt_or_ge j k with hjk | hkj
      · exact hmet j q hj hjk hq
      · exact absurd hq (hfree j hkj hji q)
    · rw [h.stops_eq r, hstops]
      intro e he heq hnone
      subst heq
      rw [hone e he rfl, hnext] at hnone
      cases hnone
    · exact (h.mem_waitingAt i p).2 (.inr ⟨(r, k), hmem, hnext⟩)
  | none =>
    have hfree := nextPlace?_eq_none hs hnext
    refine ⟨max slots.length first, Nat.le_max_right _ _, fun j hj _ => ?_, fun j q hj _ hq => ?_,
      .inr ⟨?_, .inr rfl⟩⟩
    · rcases Nat.lt_or_ge j k with hjk | hkj
      · exact hpassed j hj hjk
      · exact not_stopsAt_of_unused (hfree j hkj)
    · rcases Nat.lt_or_ge j k with hjk | hkj
      · exact hmet j q hj hjk hq
      · exact absurd hq (hfree j hkj q)
    · rw [h.stops_of_none (r, k) hmem hnext, SortedMap.getD, hget]
      rfl

/-- Before the first step every resource waits at its first operation. -/
theorem holds_begin (hs : ∀ slot ∈ slots, slot.Sound) (start : Frontier) (blocks : ω → Bool) :
    Holds slots start blocks [] (begin slots start) := by
  have hadv : Advanced slots start start.entries ⟨∅, ∅, .empty true⟩ (begin slots start) :=
    advanced_foldl start.entries (BucketQueue.sound_empty true)
  have hempty : Queued slots [] (.empty true) := by
    refine ⟨BucketQueue.sound_empty true, rfl, List.nodup_nil, fun e he => (nomatch he),
      fun i p hp => ?_, fun e he => (nomatch he), fun i p _ hmet => (nomatch hmet)⟩
    rw [BucketQueue.waitingAt_empty] at hp
    cases hp
  refine ⟨hempty.add hadv.sound hadv.dropsDuplicates hadv.mem_waitingAt ?_, fun r hr => ?_,
    fun r hr => ?_, fun r first hget => ?_⟩
  · intro i p h
    obtain ⟨e, -, hnext⟩ := h
    obtain ⟨-, ⟨op, hop, -⟩, -⟩ := nextPlace?_eq_some hs hnext
    exact ⟨⟨op, hop⟩, fun e he => (nomatch he)⟩
  · exact absurd ((hadv.mem_active r).1 hr).1 (SortedSet.not_mem_empty r)
  · refine hadv.stops_eq r fun e he heq => ?_
    rw [← heq, SortedMap.mem_entries_iff.1 he] at hr
    cases hr
  · refine hadv.tracks hs hget (Nat.le_refl first) (SortedMap.mem_entries_iff.2 hget)
      (fun e he heq => ?_) rfl (fun i hi hlt => ?_) fun i p hi hlt => ?_
    · rw [← heq, SortedMap.mem_entries_iff.1 he] at hget
      exact Option.some.inj hget
    · exact absurd hlt (Nat.not_lt.2 hi)
    · exact absurd hlt (Nat.not_lt.2 hi)

/-- The walk `w` serves the place of an operation, and comes to `w'` when all resources that have
reached the operation have been noted. -/
structure Meeting (slots : List (Slot ω)) (start : Frontier) (w w' : Walk) (index position : Nat)
    (op : ω) : Prop where
  serves : w.queue.Serves index position w'.queue
  place : (operationsAt slots index)[position]? = some op
  stops_eq : w'.stops = w.stops
  mem_active : ∀ r, r ∈ w'.active ↔ r ∈ w.active ∨
    r ∈ resources op ∧ w.stops.get? r = none ∧ ∃ first ≤ index, start.get? r = some first

namespace Holds

/-! ### Meeting an operation -/

section Meeting

variable {met : List (Nat × Nat)} {w w' w'' : Walk} {index position : Nat} {op : ω} {r : Resource}

/-- A resource of the operation that is met has come no farther, and if it has not come to its end
it waits right there. -/
theorem point_eq (h : Holds slots start blocks met w)
    (m : Meeting slots start w w' index position op) (hr : r ∈ resources op) {first point : Nat}
    (ht : Tracks slots start blocks met w r first point) (hle : first ≤ index) :
    point ≤ index ∧ (w.stops.get? r = none → point = index) := by
  have hwait : position ∈ w.queue.waitingAt index := m.serves.mem_waitingAt.2 (.inl ⟨rfl, rfl⟩)
  have hpoint : point ≤ index := Nat.le_of_not_lt fun hlt =>
    h.queued.fresh _ _ hwait (ht.met index position hle hlt ⟨op, m.place, hr⟩)
  refine ⟨hpoint, fun hnone => ?_⟩
  rcases ht.here with ⟨-, p, -, hp⟩ | ⟨hsome, -⟩
  · exact Nat.le_antisymm hpoint (m.serves.le_of_mem hp)
  · rw [hnone] at hsome
    cases hsome

/-- An active resource has started and has not come to its end. -/
theorem started (h : Holds slots start blocks met w)
    (m : Meeting slots start w w' index position op) (hr : r ∈ w'.active) :
    w.stops.get? r = none ∧ ∃ first ≤ index, start.get? r = some first := by
  rcases (m.mem_active r).1 hr with hactive | ⟨-, hreached⟩
  · obtain ⟨hnone, first, hget, hle⟩ := h.active r hactive
    exact ⟨hnone, first, hle index position (m.serves.mem_waitingAt.2 (.inl ⟨rfl, rfl⟩)), hget⟩
  · exact hreached

/-- An active resource of the operation waits right there. -/
theorem tracks_of_active (h : Holds slots start blocks met w)
    (m : Meeting slots start w w' index position op) (hr : r ∈ resources op)
    (hactive : r ∈ w'.active) : ∃ first ≤ index, start.get? r = some first ∧
      w.stops.get? r = none ∧ Tracks slots start blocks met w r first index := by
  obtain ⟨hnone, first, hle, hget⟩ := h.started m hactive
  obtain ⟨point, ht⟩ := h.tracks r first hget
  obtain rfl := (h.point_eq m hr ht hle).2 hnone
  exact ⟨first, hle, hget, hnone, ht⟩

/-- Where nothing stops the operation, all its resources are active. -/
theorem active_of_not_stops (h : Holds slots start blocks met w)
    (hs : ∀ slot ∈ slots, slot.Sound) (m : Meeting slots start w w' index position op)
    (hpass : ¬Stops slots start blocks index op) (hr : r ∈ resources op) : r ∈ w'.active := by
  obtain ⟨first, hle, hget, hfree⟩ := (not_stops_iff.1 hpass).2 r hr
  refine (m.mem_active r).2 (.inr ⟨hr, ?_, first, hle, hget⟩)
  obtain ⟨point, ht⟩ := h.tracks r first hget
  have hpoint := (h.point_eq m hr ht hle).1
  -- A resource that has come to its end has been stopped, and so would stop this operation.
  rcases ht.here with ⟨hnone, -⟩ | ⟨-, hstop | hend⟩
  · exact hnone
  · rcases Nat.lt_or_eq_of_le hpoint with hlt | rfl
    · exact absurd hstop (hfree point ht.first_le hlt)
    · exact absurd ((stopsAt_iff hs m.place hr).1 hstop) hpass
  · have hlen := lt_length_of_mem_operationsAt (List.mem_of_getElem? m.place)
    have hmax := Nat.le_max_left slots.length first
    omega

/-- The operation is passed exactly when nothing stops it. -/
theorem passes_iff (h : Holds slots start blocks met w) (hs : ∀ slot ∈ slots, slot.Sound)
    (m : Meeting slots start w w' index position op) :
    ((resources op).all w'.active.contains && !blocks op) = true ↔
      ¬Stops slots start blocks index op := by
  rw [Bool.and_eq_true, List.all_eq_true, Bool.not_eq_true']
  constructor
  · intro hx
    obtain ⟨hactive, hblocks⟩ := hx
    refine not_stops_iff.2 ⟨hblocks, fun r hr => ?_⟩
    obtain ⟨first, hle, hget, -, ht⟩ :=
      h.tracks_of_active m hr (SortedSet.contains_iff.1 (hactive r hr))
    exact ⟨first, hle, hget, ht.passed⟩
  · intro hpass
    refine ⟨fun r hr => SortedSet.contains_iff.2 (h.active_of_not_stops hs m hpass hr), ?_⟩
    exact (not_stops_iff.1 hpass).1

/-- A resource that waits at the operation has met everything up to it. -/
theorem met_of_le (hs : ∀ slot ∈ slots, slot.Sound)
    (m : Meeting slots start w w' index position op) (hr : r ∈ resources op) {first : Nat}
    (ht : Tracks slots start blocks met w r first index) {i p : Nat} (hi : first ≤ i)
    (hle : i ≤ index) (huse : UsesAt slots r i p) : (i, p) ∈ (index, position) :: met := by
  rcases Nat.lt_or_eq_of_le hle with hlt | rfl
  · exact List.mem_cons_of_mem _ (ht.met i p hi hlt huse)
  · obtain ⟨a, ha, hra⟩ := huse
    rw [place_unique hs ha m.place hra hr]
    exact List.mem_cons_self

/-- A resource that has not reached the operation stays where it is. -/
theorem tracks_of_not_reached (h : Holds slots start blocks met w)
    (m : Meeting slots start w w' index position op) {first : Nat}
    (hr : ¬(r ∈ resources op ∧ r ∈ w'.active)) (hget : start.get? r = some first)
    (hstops : w''.stops.get? r = w.stops.get? r)
    (hwait : ∀ i p, p ∈ w'.queue.waitingAt i → p ∈ w''.queue.waitingAt i) :
    ∃ point, Tracks slots start blocks ((index, position) :: met) w'' r first point := by
  obtain ⟨point, ht⟩ := h.tracks r first hget
  refine ⟨point, ht.first_le, ht.passed,
    fun i p hi hlt huse => List.mem_cons_of_mem _ (ht.met i p hi hlt huse), ?_⟩
  rw [hstops]
  refine ht.here.imp_left ?_
  intro hx
  obtain ⟨hnone, p, ⟨a, ha, hra⟩, hp⟩ := hx
  refine ⟨hnone, p, ⟨a, ha, hra⟩, hwait point p ?_⟩
  refine (m.serves.mem_waitingAt.1 hp).resolve_left ?_
  intro hx
  obtain ⟨rfl, rfl⟩ := hx
  rw [m.place] at ha
  cases ha
  exact hr ⟨hra, (m.mem_active r).2 (.inr ⟨hra, hnone, first, ht.first_le, hget⟩)⟩

/-- The next operations of the resources that have been passed lie ahead. -/
theorem queued_of_advanced (h : Holds slots start blocks met w) (hs : ∀ slot ∈ slots, slot.Sound)
    (m : Meeting slots start w w' index position op)
    (hadv : Advanced slots start ((resources op).map (·, index + 1)) w' w'') :
    Queued slots ((index, position) :: met) w''.queue := by
  have hwait : position ∈ w.queue.waitingAt index := m.serves.mem_waitingAt.2 (.inl ⟨rfl, rfl⟩)
  have hle : ∀ e ∈ (index, position) :: met, e.1 ≤ index :=
    List.forall_mem_cons.2 ⟨Nat.le_refl _, fun e he => h.queued.ahead e he _ _ hwait⟩
  refine (h.queued.serve m.serves).add hadv.sound hadv.dropsDuplicates hadv.mem_waitingAt ?_
  intro i p hx
  obtain ⟨e, he, hnext⟩ := hx
  obtain ⟨r, -, rfl⟩ := List.mem_map.1 he
  obtain ⟨hlt, ⟨a, ha, -⟩, -⟩ := nextPlace?_eq_some hs hnext
  exact ⟨⟨a, ha⟩, fun e he => Nat.lt_of_le_of_lt (hle e he) hlt⟩

/-- The operation lets its resources pass, and each of them goes on to its next operation. -/
theorem pass (h : Holds slots start blocks met w) (hs : ∀ slot ∈ slots, slot.Sound)
    (m : Meeting slots start w w' index position op) (hpass : ¬Stops slots start blocks index op)
    (hadv : Advanced slots start ((resources op).map (·, index + 1)) w' w'') :
    Holds slots start blocks ((index, position) :: met) w'' := by
  have hqueued := h.queued_of_advanced hs m hadv
  have hother : ∀ r, r ∉ resources op → w''.stops.get? r = w.stops.get? r := fun r hr => by
    rw [hadv.stops_eq, m.stops_eq]
    intro e he heq
    subst heq
    obtain ⟨r, hr', rfl⟩ := List.mem_map.1 he
    exact absurd hr' hr
  refine ⟨hqueued, fun r hr => ?_, fun r hnone => ?_, fun r first hget => ?_⟩
  · obtain ⟨hactive, hnext⟩ := (hadv.mem_active r).1 hr
    obtain ⟨hnone, first, hle, hget⟩ := h.started m hactive
    refine ⟨?_, first, hget, fun i p hp => ?_⟩
    · rw [hadv.stops_eq r hnext, m.stops_eq, hnone]
    · exact Nat.le_trans hle (hqueued.ahead _ List.mem_cons_self i p hp)
  · rw [hother r, h.outside r hnone]
    intro hr
    obtain ⟨first, -, hget, -⟩ := (not_stops_iff.1 hpass).2 r hr
    rw [hnone] at hget
    cases hget
  · by_cases hr : r ∈ resources op
    · have hactive := h.active_of_not_stops hs m hpass hr
      obtain ⟨first', hle, hget', hnone, ht⟩ := h.tracks_of_active m hr hactive
      rw [hget] at hget'
      cases hget'
      refine hadv.tracks hs hget (Nat.le_succ_of_le hle) (List.mem_map.2 ⟨r, hr, rfl⟩)
        (fun e he _ => ?_) (m.stops_eq ▸ hnone) (fun i hi hlt => ?_) fun i p hi hlt huse => ?_
      · obtain ⟨r', -, rfl⟩ := List.mem_map.1 he
        rfl
      · rcases Nat.lt_succ_iff_lt_or_eq.1 hlt with hlt | rfl
        · exact ht.passed i hi hlt
        · exact fun hstop => hpass ((stopsAt_iff hs m.place hr).1 hstop)
      · exact met_of_le hs m hr ht hi (Nat.le_of_lt_succ hlt) huse
    · have hreach : ¬(r ∈ resources op ∧ r ∈ w'.active) := fun hreach => hr hreach.1
      refine h.tracks_of_not_reached m hreach hget (hother r hr) fun i p hp => ?_
      exact (hadv.mem_waitingAt i p).2 (.inl hp)

/-- The operation stops those of its resources that have reached it. -/
theorem halt (h : Holds slots start blocks met w) (hs : ∀ slot ∈ slots, slot.Sound)
    (m : Meeting slots start w w' index position op) (hstop : Stops slots start blocks index op)
    (hhalt : Halted index (resources op) w' w'') :
    Holds slots start blocks ((index, position) :: met) w'' := by
  have hqueued : Queued slots ((index, position) :: met) w''.queue := by
    rw [hhalt.queue_eq]
    exact h.queued.serve m.serves
  have hother : ∀ r, ¬(r ∈ resources op ∧ r ∈ w'.active) → w''.stops.get? r = w.stops.get? r :=
    fun r hr => by rw [hhalt.stops_eq r hr, m.stops_eq]
  refine ⟨hqueued, fun r hr => ?_, fun r hnone => ?_, fun r first hget => ?_⟩
  · obtain ⟨hactive, hnot⟩ := (hhalt.mem_active r).1 hr
    obtain ⟨hnone, first, hle, hget⟩ := h.started m hactive
    refine ⟨?_, first, hget, fun i p hp => ?_⟩
    · rw [hother r fun hreach => hnot hreach.1, hnone]
    · exact Nat.le_trans hle (hqueued.ahead _ List.mem_cons_self i p hp)
  · rw [hother r, h.outside r hnone]
    intro hx
    obtain ⟨-, hactive⟩ := hx
    obtain ⟨-, first, -, hget⟩ := h.started m hactive
    rw [hnone] at hget
    cases hget
  · by_cases hr : r ∈ resources op ∧ r ∈ w'.active
    · obtain ⟨first', hle, hget', -, ht⟩ := h.tracks_of_active m hr.1 hr.2
      rw [hget] at hget'
      cases hget'
      refine ⟨index, hle, ht.passed,
        fun i p hi hlt huse => List.mem_cons_of_mem _ (ht.met i p hi hlt huse), .inr ⟨?_, .inl ?_⟩⟩
      · exact hhalt.stops_of_active r hr.1 hr.2
      · exact (stopsAt_iff hs m.place hr.1).2 hstop
    · refine h.tracks_of_not_reached m hr hget (hother r hr) fun i p hp => ?_
      rwa [hhalt.queue_eq]

/-- Meeting the operation whose place is served. -/
theorem meet (h : Holds slots start blocks met w) (hs : ∀ slot ∈ slots, slot.Sound)
    {queue : BucketQueue Nat} (hq : w.queue.Serves index position queue)
    (hop : (operationsAt slots index)[position]? = some op) :
    Holds slots start blocks ((index, position) :: met)
      (({ w with queue } : Walk).meet slots start blocks index op) := by
  have hreach : Reached start index (resources op) { w with queue }
      ((resources op).foldl (reach start index) { w with queue }) := reached_foldl _ _ _
  have m : Meeting slots start w ((resources op).foldl (reach start index) { w with queue })
      index position op := ⟨hreach.queue_eq ▸ hq, hop, hreach.stops_eq, hreach.mem_active⟩
  rw [Walk.meet]
  split
  · rename_i hpass
    refine h.pass hs m ((h.passes_iff hs m).1 hpass) ?_
    have hadv : Advanced slots start ((resources op).map (·, index + 1)) _ _ :=
      advanced_foldl _ m.serves.sound
    rw [List.foldl_map] at hadv
    exact hadv
  · rename_i hpass
    refine h.halt hs m (not_not.1 fun hstop => hpass ((h.passes_iff hs m).2 hstop)) ?_
    exact halted_foldl _ _ _

end Meeting

/-! ### The whole walk -/

/-- As many steps as there are operations bring the walk to its end. -/
theorem run (hs : ∀ slot ∈ slots, slot.Sound) (steps : Nat) :
    ∀ {met : List (Nat × Nat)} {w : Walk}, Holds slots start blocks met w →
      (slots.flatMap Slot.operations).length ≤ steps + met.length →
      ∃ met', Holds slots start blocks met' (Walk.run slots start blocks steps w) ∧
        ∀ i, (Walk.run slots start blocks steps w).queue.waitingAt i = [] := by
  induction steps with
  | zero =>
    intro met w h hsteps
    refine ⟨met, h, fun i => List.eq_nil_iff_forall_not_mem.2 fun p hp => ?_⟩
    have hlt := h.queued.length_lt hp
    omega
  | succ steps ih =>
    intro met w h hsteps
    rw [Walk.run]
    split
    · rename_i hq
      exact ⟨met, h, BucketQueue.waitingAt_of_dequeue_none hq⟩
    · rename_i index position queue hq
      have hserves := h.queued.sound.dequeue_some hq
      obtain ⟨op, hop⟩ :=
        h.queued.waiting_valid index position (hserves.mem_waitingAt.2 (.inl ⟨rfl, rfl⟩))
      rw [← getElem?_operationsAt, hop]
      refine ih (h.meet hs hserves hop) ?_
      rw [List.length_cons]
      omega

/-- When nothing waits any more, every resource has come to its end. -/
theorem endsAt {met : List (Nat × Nat)} {w : Walk} {r : Resource} {first : Nat}
    (h : Holds slots start blocks met w) (hempty : ∀ i, w.queue.waitingAt i = [])
    (hget : start.get? r = some first) :
    ∃ last, w.stops.get? r = some last ∧ first ≤ last ∧ EndsAt slots start blocks r first last := by
  obtain ⟨point, ht⟩ := h.tracks r first hget
  rcases ht.here with ⟨-, p, -, hp⟩ | ⟨hstops, hstop | hend⟩
  · rw [hempty point] at hp
    cases hp
  · refine ⟨point, hstops, ht.first_le, .inl ⟨⟨ht.first_le, hstop⟩, fun i hi => ?_⟩⟩
    exact Nat.le_of_not_lt fun hlt => ht.passed i hi.1 hlt hi.2
  · refine ⟨point, hstops, ht.first_le, .inr ⟨hend, fun i hi hstop => ?_⟩⟩
    obtain ⟨op, hop, -⟩ := id hstop
    have hlt := lt_length_of_mem_operationsAt hop
    have hmax := Nat.le_max_left slots.length first
    exact ht.passed i hi (by omega) hstop

end Holds

/-- The state in which the walk ends. -/
theorem exists_final (hs : ∀ slot ∈ slots, slot.Sound) (start : Frontier) (blocks : ω → Bool) :
    ∃ met w, Holds slots start blocks met w ∧ (∀ i, w.queue.waitingAt i = []) ∧
      reachableFrontier slots start blocks = w.stops := by
  obtain ⟨met, hholds, hempty⟩ := (holds_begin hs start blocks).run hs
    (slots.flatMap Slot.operations).length (Nat.le_add_right _ _)
  exact ⟨met, _, hholds, hempty, rfl⟩

end Walk

section Exact

variable {ω : Type} [Operation ω] {slots : List (Slot ω)}

theorem exists_get?_reachableFrontier (hs : ∀ slot ∈ slots, slot.Sound) (start : Frontier)
    (blocks : ω → Bool) {r : Resource} {first : Nat} (hget : start.get? r = some first) :
    ∃ last, (reachableFrontier slots start blocks).get? r = some last ∧ first ≤ last ∧
      EndsAt slots start blocks r first last := by
  obtain ⟨met, w, hholds, hempty, heq⟩ := Walk.exists_final hs start blocks
  rw [heq]
  exact hholds.endsAt hempty hget

theorem get?_reachableFrontier_eq_none (hs : ∀ slot ∈ slots, slot.Sound) {start : Frontier}
    (blocks : ω → Bool) {r : Resource} (h : start.get? r = none) :
    (reachableFrontier slots start blocks).get? r = none := by
  obtain ⟨met, w, hholds, -, heq⟩ := Walk.exists_final hs start blocks
  rw [heq]
  exact hholds.outside r h

theorem keys_reachableFrontier (hs : ∀ slot ∈ slots, slot.Sound) (start : Frontier)
    (blocks : ω → Bool) : (reachableFrontier slots start blocks).keys = start.keys := by
  refine SortedMap.keys_eq_of_get?_isSome fun r => ⟨?_, ?_⟩
  · intro h
    obtain ⟨last, hlast⟩ := h
    cases hget : start.get? r with
    | none =>
      rw [get?_reachableFrontier_eq_none hs blocks hget] at hlast
      cases hlast
    | some first => exact ⟨first, rfl⟩
  · intro h
    obtain ⟨first, hget⟩ := h
    obtain ⟨last, hlast, -⟩ := exists_get?_reachableFrontier hs start blocks hget
    exact ⟨last, hlast⟩

/-- What the reachable frontier gives for a resource is where that resource comes to its end. -/
theorem get?_reachableFrontier_eq_some_iff (hs : ∀ slot ∈ slots, slot.Sound) {start : Frontier}
    {blocks : ω → Bool} {r : Resource} {last : Nat} :
    (reachableFrontier slots start blocks).get? r = some last ↔
      ∃ first, start.get? r = some first ∧ EndsAt slots start blocks r first last := by
  constructor
  · intro h
    have hkey : r ∈ start.keys := by
      rw [← keys_reachableFrontier hs start blocks]
      exact SortedMap.mem_keys_iff.2 ⟨last, h⟩
    obtain ⟨first, hget⟩ := SortedMap.mem_keys_iff.1 hkey
    obtain ⟨last', hlast', -, hend⟩ := exists_get?_reachableFrontier hs start blocks hget
    rw [h] at hlast'
    cases hlast'
    exact ⟨first, hget, hend⟩
  · intro h
    obtain ⟨first, hget, hend⟩ := h
    obtain ⟨last', hlast', -, hend'⟩ := exists_get?_reachableFrontier hs start blocks hget
    rw [hlast', hend'.unique hend]

/-- **The reachable frontier is exact.** It has the resources of the starting frontier, and each of
them ends where an operation on it is stopped first, or at the end of the schedule. -/
theorem reachableFrontier_exact (hs : ∀ slot ∈ slots, slot.Sound) (start : Frontier)
    (blocks : ω → Bool) :
    (reachableFrontier slots start blocks).keys = start.keys ∧
      ∀ r first, start.get? r = some first →
        ∃ last, (reachableFrontier slots start blocks).get? r = some last ∧ first ≤ last ∧
          EndsAt slots start blocks r first last :=
  ⟨keys_reachableFrontier hs start blocks,
    fun _ _ hget => exists_get?_reachableFrontier hs start blocks hget⟩

/-- Two gates in a row, the first of them on the two resources of a frontier of which one starts
only behind it. -/
theorem reachableFrontier_exact_two_gates :
    let cz : Instruction := { name := "cz", resources := [.line 0, .line 1] }
    let x : Instruction := { name := "x", resources := [.line 0] }
    let slots : List (Slot Instruction) := [⟨[cz], SortedMap.ofList [(.line 0, 0), (.line 1, 0)]⟩,
      ⟨[x], SortedMap.ofList [(.line 0, 0)]⟩]
    let start : Frontier := SortedMap.ofList [(.line 0, 0), (.line 1, 1)]
    (∀ slot ∈ slots, slot.Sound) ∧
      (reachableFrontier slots start fun _ => false).keys = start.keys ∧
      ∀ r first, start.get? r = some first →
        ∃ last, (reachableFrontier slots start fun _ => false).get? r = some last ∧ first ≤ last ∧
          EndsAt slots start (fun _ => false) r first last := by
  intro cz x slots start
  have hcz : (⟨[cz], SortedMap.ofList [(.line 0, 0), (.line 1, 0)]⟩ : Slot Instruction).Sound :=
    Slot.Sound.ofOperations (rfl : Slot.ofOperations [cz] = .ok _)
  have hx : (⟨[x], SortedMap.ofList [(.line 0, 0)]⟩ : Slot Instruction).Sound :=
    Slot.Sound.ofOperations (rfl : Slot.ofOperations [x] = .ok _)
  have hs : ∀ slot ∈ slots, slot.Sound :=
    List.forall_mem_cons.2 ⟨hcz, List.forall_mem_cons.2 ⟨hx, fun slot h => nomatch h⟩⟩
  exact ⟨hs, reachableFrontier_exact hs start fun _ => false⟩

end Exact

end Timetable
