import Timetable.Proofs.Schedule.FirstFit
import Timetable.Proofs.Schedule.KeyOrder
import Timetable.Proofs.Schedule.Refusal

/-!
# Filling a range

Operations that go into a range are written into slots that take them, so none of them can fail to
go in; what is left over when the range is used up is inserted behind it. A request can therefore
only fail before anything has been written.

* `RangeRun`: a range is filled, and what is left over is inserted at its end.
* `Schedule.exists_rangeRun`: operations that pass their check go in, by such a run.
* `Schedule.adds_insertIntoRange`: what a request that succeeds adds.
* `Schedule.insertIntoRange_eq_error_iff`: when a request fails, and with which fault.
-/

namespace Timetable

variable {ω : Type} [Operation ω]

/-- The operations of `filled` are written into the range, which takes the schedule `s` to `mid`;
those of `spilled` are left over and are inserted at its end, which takes `mid` to `s'`. -/
structure RangeRun (s mid s' : Schedule ω) (start stop : Nat) (filled spilled : List (Nat × ω))
    (moved : Nat → Nat) (next : Nat) : Prop where
  range : start ≤ stop ∧ stop ≤ s.length
  filling : Filling s start stop filled mid
  findsNoSlot : ∀ e ∈ spilled.head?, FindsNoSlot s start stop filled e.2
  overflow : EarliestRun mid stop moved spilled s' next
  nothing_left : spilled = [] → s' = mid ∧ next = stop

namespace RangeRun

variable {s mid s' : Schedule ω} {start stop next : Nat} {filled spilled : List (Nat × ω)}
variable {moved : Nat → Nat}

/-- What is in the range stays where it is while the others go in behind it. -/
theorem layout (h : RangeRun s mid s' start stop filled spilled moved next) :
    Layout s.slots moved (filled ++ spilled) s'.slots := by
  have hstay : relocate moved filled = filled :=
    relocate_of_fixed fun e he => h.overflow.fixed e.1 (h.filling.within e he).2.2
  have hboth := h.filling.layout.trans h.overflow.layout
  rwa [hstay] at hboth

/-- Of two operations on one resource the second one is in a later slot, also when the first one is
in the range and the second one has been left over. -/
theorem ordered (h : RangeRun s mid s' start stop filled spilled moved next) :
    (filled ++ spilled).Pairwise fun a b => SharesResource a.2 b.2 → a.1 < b.1 := by
  refine List.pairwise_append.2 ⟨h.filling.ordered, h.overflow.ordered, fun a ha b hb hshare => ?_⟩
  exact h.overflow.behind b hb a.1 (h.filling.within a ha).2.2 a.2 (h.filling.layout.mem_of_landed ha)
    hshare

end RangeRun

namespace Schedule

/-- Bare operations that pass their check go in as early as they can. -/
theorem exists_earliestRun_ofList {s : Schedule ω} (hs : s.Sound) {ops : List ω}
    (hcheck : ∀ op ∈ ops, checkOperation op = .ok ()) {index : Nat} (hindex : index ≤ s.length) :
    ∃ moved landed next, (s.insert index (.ofList ops) .earliest).answer = .ok next ∧
      landed.map Prod.snd = ops ∧
      EarliestRun s index moved landed (s.insert index (.ofList ops) .earliest).left next := by
  have hitems : ∀ item ∈ (Bundle.ofList ops).items, checkItem item = .ok () := by
    rw [Bundle.items_ofList]
    intro item hitem
    obtain ⟨op, hop, rfl⟩ := List.mem_map.1 hitem
    exact hcheck op hop
  have hbare : ∀ slot, Item.slot slot ∉ (Bundle.ofList ops).items := by
    rw [Bundle.items_ofList]
    simp
  have hrun := exists_earliestRun hs hindex hbare hitems
  rw [← Bundle.operations, Bundle.operations_ofList] at hrun
  rw [insert, checkItems_eq_ok_iff.2 hitems, Nat.min_eq_left hindex]
  exact hrun

/-- Operations that pass their check go into the range or, as far as it is used up, behind it. -/
theorem exists_rangeRun {s : Schedule ω} (hs : s.Sound) {bundle : Bundle ω} {start stop : Nat}
    (hrange : start ≤ stop ∧ stop ≤ s.length)
    (hcheck : checkOperations bundle.operations = .ok ()) :
    ∃ mid filled spilled moved next, (s.insertIntoRange bundle start stop).answer = .ok next ∧
      (filled ++ spilled).map Prod.snd = bundle.operations ∧
      RangeRun s mid (s.insertIntoRange bundle start stop).left start stop filled spilled moved
        next := by
  have hfit := checkOperations_eq_ok_iff.1 hcheck
  obtain ⟨filled, rest, hans, hops, hfilling, hnone⟩ :=
    exists_filling (fun op hop => (checkOperation_eq_ok_iff.1 (hfit op hop)).1) hrange.2
      (Filling.refl hs start stop)
  rw [cursorAfter_nil, List.nil_append] at hfilling
  rw [cursorAfter_nil] at hans
  rw [List.nil_append] at hnone
  have hstop : stop ≤ (s.fillRange start stop bundle.operations).left.length := by
    rw [hfilling.length_eq]
    exact hrange.2
  rw [insertIntoRange, if_neg (by simpa using hrange), hcheck]
  dsimp only
  rw [hans]
  generalize s.fillRange start stop bundle.operations = done at hfilling hstop ⊢
  cases rest with
  | nil =>
    refine ⟨done.left, filled, [], id, stop, rfl, ?_, hrange, hfilling, by simp,
      EarliestRun.refl hfilling.sound hstop, fun _ => ⟨rfl, rfl⟩⟩
    rw [List.append_nil, ← hops, List.append_nil]
  | cons op rest =>
    obtain ⟨moved, spilled, next, hans', hops', hrun⟩ := exists_earliestRun_ofList hfilling.sound
      (fun a ha => hfit a (hops ▸ List.mem_append_right _ ha)) hstop
    refine ⟨done.left, filled, spilled, moved, next, hans', ?_, hrange, hfilling, fun e he => ?_,
      hrun, ?_⟩
    · rw [List.map_append, hops', hops]
    · refine hnone e.2 ?_
      rw [← hops', List.head?_map, he]
      rfl
    · rintro rfl
      cases hops'

/-- What is no range of the schedule is refused. -/
theorem insertIntoRange_of_badRange {s : Schedule ω} {start stop : Nat}
    (h : ¬(start ≤ stop ∧ stop ≤ s.length)) (bundle : Bundle ω) :
    s.insertIntoRange bundle start stop = ⟨s, .error (.badRange start stop s.length)⟩ := by
  have hif : (start > stop || stop > s.length) = true := by
    simp only [Bool.or_eq_true, decide_eq_true_eq]
    omega
  rw [insertIntoRange, if_pos hif]

/-- Operations that do not pass their check are refused. -/
theorem insertIntoRange_of_unfit {s : Schedule ω} {bundle : Bundle ω} {start stop : Nat} {e : Fault}
    (hrange : start ≤ stop ∧ stop ≤ s.length)
    (hcheck : checkOperations bundle.operations = .error e) :
    s.insertIntoRange bundle start stop = ⟨s, .error e⟩ := by
  rw [insertIntoRange, if_neg (by simpa using hrange), hcheck]

/-- A request to fill a range fails exactly when the range is no range of the schedule or some
operation is unfit. -/
theorem insertIntoRange_eq_error_iff {s : Schedule ω} (hs : s.Sound) {bundle : Bundle ω}
    {start stop : Nat} {e : Fault} :
    (s.insertIntoRange bundle start stop).answer = .error e ↔
      ¬(start ≤ stop ∧ stop ≤ s.length) ∧ e = .badRange start stop s.length ∨
        (start ≤ stop ∧ stop ≤ s.length) ∧ FirstFault Unfit bundle.operations e := by
  rw [← checkOperations_eq_error_iff]
  by_cases hrange : start ≤ stop ∧ stop ≤ s.length
  · cases hcheck : checkOperations bundle.operations with
    | error f => simp [insertIntoRange_of_unfit hrange hcheck, hrange]
    | ok _ =>
      obtain ⟨-, -, -, -, next, hans, -⟩ := exists_rangeRun hs hrange hcheck
      simp [hans, hrange]
  · rw [insertIntoRange_of_badRange hrange]
    simp [hrange, eq_comm]

/-- A request that succeeds is one for a range of the schedule. -/
theorem range_of_insertIntoRange {s : Schedule ω} {bundle : Bundle ω} {start stop next : Nat}
    (h : (s.insertIntoRange bundle start stop).answer = .ok next) :
    start ≤ stop ∧ stop ≤ s.length := by
  by_contra hrange
  rw [insertIntoRange_of_badRange hrange] at h
  cases h

/-- A request that succeeds has been such a run. -/
theorem rangeRun_of_insertIntoRange {s : Schedule ω} (hs : s.Sound) {bundle : Bundle ω}
    {start stop next : Nat} (h : (s.insertIntoRange bundle start stop).answer = .ok next) :
    ∃ mid filled spilled moved, (filled ++ spilled).map Prod.snd = bundle.operations ∧
      RangeRun s mid (s.insertIntoRange bundle start stop).left start stop filled spilled moved
        next := by
  have hrange := range_of_insertIntoRange h
  cases hcheck : checkOperations bundle.operations with
  | error f =>
    rw [insertIntoRange_of_unfit hrange hcheck] at h
    cases h
  | ok _ =>
    obtain ⟨mid, filled, spilled, moved, next', hans, hops, hrun⟩ :=
      exists_rangeRun hs hrange hcheck
    rw [h] at hans
    cases hans
    exact ⟨mid, filled, spilled, moved, hops, hrun⟩

/-- A request that succeeds adds the operations of its bundle. -/
theorem adds_insertIntoRange {s : Schedule ω} (hs : s.Sound) {bundle : Bundle ω}
    {start stop next : Nat} (h : (s.insertIntoRange bundle start stop).answer = .ok next) :
    (s.insertIntoRange bundle start stop).left.Sound ∧
      s.Adds bundle.operations (s.insertIntoRange bundle start stop).left := by
  obtain ⟨mid, filled, spilled, moved, hops, hrun⟩ := rangeRun_of_insertIntoRange hs h
  exact ⟨hrun.overflow.sound, moved, _, hrun.layout, List.Perm.of_eq hops⟩

/-- A request that fails leaves the schedule as it was. -/
theorem insertIntoRange_left_of_error {s : Schedule ω} (hs : s.Sound) {bundle : Bundle ω}
    {start stop : Nat} {e : Fault} (h : (s.insertIntoRange bundle start stop).answer = .error e) :
    (s.insertIntoRange bundle start stop).left = s := by
  by_cases hrange : start ≤ stop ∧ stop ≤ s.length
  · cases hcheck : checkOperations bundle.operations with
    | error f => rw [insertIntoRange_of_unfit hrange hcheck]
    | ok _ =>
      obtain ⟨-, -, -, -, next, hans, -⟩ := exists_rangeRun hs hrange hcheck
      rw [hans] at h
      cases h
  · rw [insertIntoRange_of_badRange hrange]

end Schedule

end Timetable
