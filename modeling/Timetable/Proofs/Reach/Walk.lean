import Timetable.Proofs.Queue.Waiting
import Timetable.Proofs.Reach.Stopping
import Mathlib.Data.List.Perm.Subperm

/-!
# The steps of the walk

The walk meets one operation after the other. Each meeting goes over the resources of the operation
and queues, notes or stops them. What that does to the queue, the active resources and the stops is
said here for all of the resources at once. No place is met twice, for whatever is put into the
queue lies in a later slot than what is being met.

* `Walk.Advanced`, `Walk.Reached`, `Walk.Halted`: the three passes over resources.
* `Walk.Queued`: what waits in the queue as against the places that have been met.
* `Walk.Queued.length_lt`: there are no more meetings than operations.
-/

namespace Timetable

namespace Walk

variable {ω : Type} {slots : List (Slot ω)} {start : Frontier}

/-! ### Steps over several resources -/

/-- The walk after the next operation has been queued for some resources, each from an index of its
own. A resource that has none comes to its end. -/
structure Advanced (slots : List (Slot ω)) (start : Frontier) (es : List (Resource × Nat))
    (w w' : Walk) : Prop where
  sound : w'.queue.Sound
  dropsDuplicates : w'.queue.dropsDuplicates = w.queue.dropsDuplicates
  mem_waitingAt : ∀ i p, p ∈ w'.queue.waitingAt i ↔
    p ∈ w.queue.waitingAt i ∨ ∃ e ∈ es, nextPlace? slots e.1 e.2 = some (i, p)
  stops_of_none : ∀ e ∈ es, nextPlace? slots e.1 e.2 = none →
    w'.stops.get? e.1 = some (max slots.length (start.getD e.1 0))
  stops_eq : ∀ r, (∀ e ∈ es, e.1 = r → nextPlace? slots e.1 e.2 ≠ none) →
    w'.stops.get? r = w.stops.get? r
  mem_active : ∀ r, r ∈ w'.active ↔
    r ∈ w.active ∧ ∀ e ∈ es, e.1 = r → nextPlace? slots e.1 e.2 ≠ none

theorem advanced_advance {w : Walk} (hq : w.queue.Sound) (r : Resource) (first : Nat) :
    Advanced slots start [(r, first)] w (w.advance slots start r first) := by
  rw [advance]
  cases hnext : nextPlace? slots r first with
  | some place =>
    obtain ⟨index, position⟩ := place
    refine ⟨hq.enqueue _ _, BucketQueue.dropsDuplicates_enqueue _ _ _, fun i p => ?_, ?_, ?_, ?_⟩
    · rw [hq.mem_waitingAt_enqueue]
      simp [hnext, eq_comm]
    · simp [hnext]
    · simp
    · simp [hnext]
  | none =>
    refine ⟨hq, rfl, fun i p => ?_, ?_, fun j hj => ?_, fun j => ?_⟩
    · simp [hnext]
    · simp [SortedMap.get?_insert]
    · have hne : r ≠ j := fun h => hj _ (List.mem_singleton_self _) h hnext
      rw [SortedMap.get?_insert, if_neg hne]
    · rw [SortedSet.mem_erase]
      simp [hnext]

theorem Advanced.trans {es es' : List (Resource × Nat)} {w w' w'' : Walk}
    (h : Advanced slots start es w w') (h' : Advanced slots start es' w' w'') :
    Advanced slots start (es ++ es') w w'' where
  sound := h'.sound
  dropsDuplicates := h'.dropsDuplicates.trans h.dropsDuplicates
  mem_waitingAt i p := by
    rw [h'.mem_waitingAt, h.mem_waitingAt, or_assoc]
    simp only [List.mem_append, or_and_right, exists_or]
  stops_of_none e he hnone := by
    rcases List.mem_append.1 he with he | he
    · by_cases hlater : ∀ f ∈ es', f.1 = e.1 → nextPlace? slots f.1 f.2 ≠ none
      · rw [h'.stops_eq _ hlater, h.stops_of_none e he hnone]
      · push Not at hlater
        obtain ⟨f, hf, heq, hnone'⟩ := hlater
        rw [← heq]
        exact h'.stops_of_none f hf hnone'
    · exact h'.stops_of_none e he hnone
  stops_eq r hr := by
    rw [h'.stops_eq r fun e he => hr e (List.mem_append_right _ he),
      h.stops_eq r fun e he => hr e (List.mem_append_left _ he)]
  mem_active r := by
    rw [h'.mem_active, h.mem_active, and_assoc]
    simp only [List.mem_append, or_imp, forall_and]

theorem advanced_foldl (es : List (Resource × Nat)) : ∀ {w : Walk}, w.queue.Sound →
    Advanced slots start es w (es.foldl (fun w e => w.advance slots start e.1 e.2) w) := by
  induction es with
  | nil =>
    intro w hq
    refine ⟨hq, rfl, fun i p => ?_, fun e he => (nomatch he), fun r _ => rfl, fun r => ?_⟩ <;> simp
  | cons e es ih =>
    intro w hq
    have hstep : Advanced slots start [e] w (w.advance slots start e.1 e.2) :=
      advanced_advance hq e.1 e.2
    exact hstep.trans (ih hstep.sound)

/-- What it does to note that some resources have reached a slot. -/
structure Reached (start : Frontier) (index : Nat) (rs : List Resource) (w w' : Walk) : Prop where
  queue_eq : w'.queue = w.queue
  stops_eq : w'.stops = w.stops
  mem_active : ∀ r, r ∈ w'.active ↔ r ∈ w.active ∨
    r ∈ rs ∧ w.stops.get? r = none ∧ ∃ first ≤ index, start.get? r = some first

theorem reached_reach (index : Nat) (w : Walk) (r : Resource) :
    Reached start index [r] w (w.reach start index r) := by
  have hcond : ((start.get? r).any (· ≤ index) && !w.stops.contains r) = true ↔
      w.stops.get? r = none ∧ ∃ first ≤ index, start.get? r = some first := by
    rw [Bool.and_eq_true, and_comm, Bool.not_eq_true', SortedMap.contains_eq_false_iff,
      Option.any_eq_true]
    simp [and_comm]
  rw [reach]
  split
  · rename_i h
    refine ⟨rfl, rfl, fun j => ?_⟩
    rw [SortedSet.mem_insert, or_comm, List.mem_singleton]
    refine or_congr_right ⟨?_, And.left⟩
    intro heq
    subst heq
    exact ⟨rfl, hcond.1 h⟩
  · rename_i h
    refine ⟨rfl, rfl, fun j => (or_iff_left ?_).symm⟩
    intro h
    obtain ⟨hj, hreach⟩ := h
    rw [List.mem_singleton.1 hj] at hreach
    exact h (hcond.2 hreach)

theorem reached_foldl (index : Nat) (rs : List Resource) (w : Walk) :
    Reached start index rs w (rs.foldl (reach start index) w) := by
  induction rs generalizing w with
  | nil => exact ⟨rfl, rfl, fun r => by simp⟩
  | cons r rs ih =>
    have hstep : Reached start index [r] w (w.reach start index r) := reached_reach index w r
    have hrest := ih (w.reach start index r)
    refine ⟨hrest.queue_eq.trans hstep.queue_eq, hrest.stops_eq.trans hstep.stops_eq, fun j => ?_⟩
    rw [List.foldl_cons, hrest.mem_active, hstep.mem_active, hstep.stops_eq, or_assoc,
      ← or_and_right, List.mem_singleton, List.mem_cons]

/-- What it does to stop those of some resources that have reached a slot. -/
structure Halted (index : Nat) (rs : List Resource) (w w' : Walk) : Prop where
  queue_eq : w'.queue = w.queue
  stops_of_active : ∀ r ∈ rs, r ∈ w.active → w'.stops.get? r = some index
  stops_eq : ∀ r, ¬(r ∈ rs ∧ r ∈ w.active) → w'.stops.get? r = w.stops.get? r
  mem_active : ∀ r, r ∈ w'.active ↔ r ∈ w.active ∧ r ∉ rs

theorem halted_stop (index : Nat) (w : Walk) (r : Resource) :
    Halted index [r] w (w.stop index r) := by
  rw [stop]
  split
  · rename_i h
    refine ⟨rfl, fun j hj _ => ?_, fun j hj => ?_, fun j => ?_⟩
    · rw [SortedMap.get?_insert, if_pos (List.mem_singleton.1 hj).symm]
    · refine (SortedMap.get?_insert _ _ _ _).trans (if_neg ?_)
      intro heq
      subst heq
      exact hj ⟨List.mem_singleton_self _, SortedSet.contains_iff.1 h⟩
    · rw [SortedSet.mem_erase, List.mem_singleton, ne_comm]
  · rename_i h
    have hr : r ∉ w.active := fun hmem => h (SortedSet.contains_iff.2 hmem)
    refine ⟨rfl, fun j hj hactive => ?_, fun j _ => rfl, fun j => (and_iff_left_of_imp ?_).symm⟩
    · rw [List.mem_singleton.1 hj] at hactive
      exact absurd hactive hr
    · intro hj hmem
      rw [List.mem_singleton.1 hmem] at hj
      exact hr hj

theorem halted_foldl (index : Nat) (rs : List Resource) (w : Walk) :
    Halted index rs w (rs.foldl (stop index) w) := by
  induction rs generalizing w with
  | nil => exact ⟨rfl, fun r hr => (nomatch hr), fun r _ => rfl, fun r => by simp⟩
  | cons r rs ih =>
    have hstep := halted_stop index w r
    have hrest := ih (w.stop index r)
    rw [List.foldl_cons]
    refine ⟨hrest.queue_eq.trans hstep.queue_eq, fun j hj hactive => ?_, fun j hj => ?_,
      fun j => ?_⟩
    · by_cases hjr : j ∈ [r]
      · rw [hrest.stops_eq, hstep.stops_of_active j hjr hactive]
        exact fun h => ((hstep.mem_active j).1 h.2).2 hjr
      · have hjs : j ∈ rs := (List.mem_cons.1 hj).resolve_left fun h => hjr (List.mem_singleton.2 h)
        exact hrest.stops_of_active j hjs ((hstep.mem_active j).2 ⟨hactive, hjr⟩)
    · rw [hrest.stops_eq, hstep.stops_eq]
      · intro h
        obtain ⟨hjr, hactive⟩ := h
        exact hj ⟨List.mem_cons.2 (.inl (List.mem_singleton.1 hjr)), hactive⟩
      · intro h
        obtain ⟨hjs, hactive⟩ := h
        exact hj ⟨List.mem_cons_of_mem _ hjs, ((hstep.mem_active j).1 hactive).1⟩
    · rw [hrest.mem_active, hstep.mem_active, and_assoc, List.mem_singleton, List.mem_cons, not_or]

/-! ### The places that are met -/

/-- All places of the operations of slots, the first of which has the index `k`. -/
def placesFrom : Nat → List (Slot ω) → List (Nat × Nat)
  | _, [] => []
  | k, slot :: slots =>
    (List.range slot.operations.length).map (Prod.mk k) ++ placesFrom (k + 1) slots

theorem length_placesFrom (k : Nat) (slots : List (Slot ω)) :
    (placesFrom k slots).length = (slots.flatMap Slot.operations).length := by
  induction slots generalizing k with
  | nil => rfl
  | cons slot slots ih =>
    rw [placesFrom, List.length_append, List.length_map, List.length_range, ih, List.flatMap_cons,
      List.length_append]

theorem mem_placesFrom {k : Nat} {slots : List (Slot ω)} {i p : Nat} {op : ω}
    (h : (operationsAt slots i)[p]? = some op) : (k + i, p) ∈ placesFrom k slots := by
  induction slots generalizing k i with
  | nil => cases h
  | cons slot slots ih =>
    rw [placesFrom, List.mem_append]
    cases i with
    | zero =>
      refine .inl (List.mem_map.2 ⟨p, List.mem_range.2 ?_, rfl⟩)
      exact (List.getElem?_eq_some_iff.1 h).1
    | succ i =>
      rw [← Nat.add_assoc, Nat.add_right_comm]
      exact .inr (ih h)

/-- The queue of the walk and the places that have been met: whatever waits lies ahead, at a place
of an operation, and has not been met. -/
structure Queued (slots : List (Slot ω)) (met : List (Nat × Nat)) (q : BucketQueue Nat) : Prop where
  sound : q.Sound
  dropsDuplicates : q.dropsDuplicates = true
  nodup : met.Nodup
  met_valid : ∀ e ∈ met, ∃ op, (operationsAt slots e.1)[e.2]? = some op
  waiting_valid : ∀ i p, p ∈ q.waitingAt i → ∃ op, (operationsAt slots i)[p]? = some op
  ahead : ∀ e ∈ met, ∀ i p, p ∈ q.waitingAt i → e.1 ≤ i
  fresh : ∀ i p, p ∈ q.waitingAt i → (i, p) ∉ met

namespace Queued

variable {met : List (Nat × Nat)} {q q' : BucketQueue Nat}

/-- While something waits, fewer places have been met than there are operations. -/
theorem length_lt (h : Queued slots met q) {i p : Nat} (hp : p ∈ q.waitingAt i) :
    met.length < (slots.flatMap Slot.operations).length := by
  have hall : ∀ e ∈ (i, p) :: met, ∃ op, (operationsAt slots e.1)[e.2]? = some op :=
    List.forall_mem_cons.2 ⟨h.waiting_valid i p hp, h.met_valid⟩
  have hsubset : (i, p) :: met ⊆ placesFrom 0 slots := fun e he => by
    obtain ⟨op, hop⟩ := hall e he
    have hmem := mem_placesFrom (k := 0) hop
    rwa [Nat.zero_add] at hmem
  have hnodup : ((i, p) :: met).Nodup := List.nodup_cons.2 ⟨h.fresh i p hp, h.nodup⟩
  rw [← length_placesFrom 0]
  exact (List.subperm_of_subset hnodup hsubset).length_le

/-- The place that is served has been met from then on. -/
theorem serve (h : Queued slots met q) {index position : Nat} (hq : q.Serves index position q') :
    Queued slots ((index, position) :: met) q' := by
  have hfirst : position ∈ q.waitingAt index := hq.mem_waitingAt.2 (.inl ⟨rfl, rfl⟩)
  have hold : ∀ i p, p ∈ q'.waitingAt i → p ∈ q.waitingAt i :=
    fun i p hp => hq.mem_waitingAt.2 (.inr hp)
  refine ⟨hq.sound, hq.dropsDuplicates_eq.trans h.dropsDuplicates,
    List.nodup_cons.2 ⟨h.fresh _ _ hfirst, h.nodup⟩,
    List.forall_mem_cons.2 ⟨h.waiting_valid _ _ hfirst, h.met_valid⟩,
    fun i p hp => h.waiting_valid i p (hold i p hp),
    List.forall_mem_cons.2 ⟨fun i p hp => hq.le_of_mem (hold i p hp),
      fun e he i p hp => h.ahead e he i p (hold i p hp)⟩, fun i p hp hmet => ?_⟩
  rcases List.mem_cons.1 hmet with heq | hmet
  · cases heq
    exact hq.not_mem h.sound h.dropsDuplicates hp
  · exact h.fresh i p (hold i p hp) hmet

/-- Places are put in that lie ahead of all that has been met. -/
theorem add (h : Queued slots met q) (hsound : q'.Sound)
    (hdrops : q'.dropsDuplicates = q.dropsDuplicates) {new : Nat → Nat → Prop}
    (hmem : ∀ i p, p ∈ q'.waitingAt i ↔ p ∈ q.waitingAt i ∨ new i p)
    (hnew : ∀ i p, new i p → (∃ op, (operationsAt slots i)[p]? = some op) ∧ ∀ e ∈ met, e.1 < i) :
    Queued slots met q' where
  sound := hsound
  dropsDuplicates := hdrops.trans h.dropsDuplicates
  nodup := h.nodup
  met_valid := h.met_valid
  waiting_valid i p hp :=
    ((hmem i p).1 hp).elim (h.waiting_valid i p) fun hn => (hnew i p hn).1
  ahead e he i p hp :=
    ((hmem i p).1 hp).elim (h.ahead e he i p) fun hn => Nat.le_of_lt ((hnew i p hn).2 e he)
  fresh i p hp := by
    rcases (hmem i p).1 hp with hold | hn
    · exact h.fresh i p hold
    · exact fun hmet => Nat.lt_irrefl i ((hnew i p hn).2 _ hmet)

end Queued

end Walk

end Timetable
