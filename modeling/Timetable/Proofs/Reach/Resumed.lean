import Timetable.Proofs.Selection.Between

/-!
# Going on from where a walk has ended

A walk that has ended can be taken up again from there, with the same blockers or with fewer. The
second walk starts at other indices, so other operations lie before a start. But no operation
reaches across the place where the first walk has ended, so whatever lies behind that place stops
the second walk just as it would stop one walk from the first start to the end.

* `Stops.mono`: more blockers stop more operations.
* `Stops.resume`, `Stops.of_resume`: what stops the two walks after each other stops the single one.
* `EndsAt.resume`: so their resources come to the same end.
* `reachableFrontier_resume`: walks after each other, with fewer blockers.
* `reachableFrontier_idem`: with the same blockers the second walk gets no further.
-/

namespace Timetable

variable {ω : Type} [Operation ω] {slots : List (Slot ω)}
variable {start : Frontier} {blocks later : ω → Bool}

/-! ### What stops the second walk -/

theorem Stops.mono {i : Nat} {op : ω} (h : Stops slots start later i op)
    (hlater : ∀ op, later op = true → blocks op = true) : Stops slots start blocks i op := by
  induction h with
  | blocker hb => exact .blocker (hlater _ hb)
  | unstarted hr hbehind => exact .unstarted hr hbehind
  | stopped hr hget hle hlt hmem hre _ ih => exact .stopped hr hget hle hlt hmem hre ih

section Resume

variable (hs : ∀ slot ∈ slots, slot.Sound)

include hs

/-- What stops the single walk stops the second one, for what lies before the end of the first walk
stops neither. -/
theorem Stops.resume (hlater : ∀ op, later op = true → blocks op = true) {i : Nat} {op : ω}
    (h : Stops slots start later i op) :
    Stops slots (reachableFrontier slots start blocks) later i op := by
  induction h with
  | blocker hb => exact .blocker hb
  | unstarted hr hbehind =>
    refine .unstarted hr fun last hlast => ?_
    obtain ⟨first, hget, hend⟩ := (get?_reachableFrontier_eq_some_iff hs).1 hlast
    exact Nat.lt_of_lt_of_le (hbehind first hget) hend.first_le
  | @stopped i j op earlier r first hr hget hle hlt hmem hre hstop ih =>
    obtain ⟨last, hlast, -, hend⟩ := exists_get?_reachableFrontier hs start blocks hget
    have hbehind : last ≤ j := Nat.le_of_not_lt fun hj =>
      hend.not_stopsAt hle hj ⟨earlier, hmem, hre, hstop.mono hlater⟩
    exact .stopped hr hlast hbehind hlt hmem hre ih

/-- What stops the second walk stops the single one, where it lies behind the end of the first walk
on one of its resources. -/
theorem Stops.of_resume {i : Nat} {op : ω}
    (h : Stops slots (reachableFrontier slots start blocks) later i op) :
    op ∈ operationsAt slots i →
      (∃ r ∈ resources op, ∃ last ≤ i,
        (reachableFrontier slots start blocks).get? r = some last) →
      Stops slots start later i op := by
  induction h with
  | blocker hb => exact fun _ _ => .blocker hb
  | @unstarted i op r hr hbehind =>
    intro hop hpast
    obtain ⟨x, hx, last, hle, hlast⟩ := hpast
    refine .unstarted hr fun first hget => Nat.lt_of_not_le fun hfirst => ?_
    obtain ⟨last', hlast', -, hend⟩ := exists_get?_reachableFrontier hs start blocks hget
    -- The first walk has passed the operation, so it has passed it on all its resources.
    have hpass : ¬Stops slots start blocks i op := fun hstop =>
      hend.not_stopsAt hfirst (hbehind last' hlast') ⟨op, hop, hr, hstop⟩
    obtain ⟨-, end', -, hend', -, hlt⟩ := lt_reach_of_not_stops hs hop hpass hx
    rw [hlast] at hend'
    cases hend'
    exact Nat.not_lt.2 hle hlt
  | @stopped i j op earlier r last hr hlast hle hlt hmem hre _ ih =>
    intro _ _
    obtain ⟨first, hget, hend⟩ := (get?_reachableFrontier_eq_some_iff hs).1 hlast
    refine .stopped hr hget (Nat.le_trans hend.first_le hle) hlt hmem hre ?_
    exact ih hmem ⟨r, hre, last, hle, hlast⟩

/-! ### Where the second walk ends -/

/-- The resource comes to its end in the second walk where it does in the single one. -/
theorem EndsAt.resume (hlater : ∀ op, later op = true → blocks op = true) {r : Resource}
    {first mid last : Nat} (hget : start.get? r = some first)
    (hmid : (reachableFrontier slots start blocks).get? r = some mid)
    (h : EndsAt slots start later r first last) :
    EndsAt slots (reachableFrontier slots start blocks) later r mid last := by
  obtain ⟨first', hget', hend⟩ := (get?_reachableFrontier_eq_some_iff hs).1 hmid
  obtain rfl : first = first' := Option.some.inj (hget.symm.trans hget')
  have hback : ∀ i, mid ≤ i → StopsAt slots (reachableFrontier slots start blocks) later r i →
      StopsAt slots start later r i := by
    intro i hi hstop
    obtain ⟨op, hop, hr, hstop⟩ := hstop
    exact ⟨op, hop, hr, hstop.of_resume hs hop ⟨r, hr, mid, hi, hmid⟩⟩
  have hfirst := hend.first_le
  rcases h with hleast | ⟨hlast, hfree⟩
  · obtain ⟨hle, op, hop, hr, hstop⟩ := hleast.1
    have hbehind : mid ≤ last := Nat.le_of_not_lt fun hlt =>
      hend.not_stopsAt hle hlt ⟨op, hop, hr, hstop.mono hlater⟩
    refine .inl ⟨⟨hbehind, op, hop, hr, hstop.resume hs hlater⟩, fun i hi => ?_⟩
    exact hleast.2 ⟨Nat.le_trans hfirst hi.1, hback i hi.1 hi.2⟩
  · refine .inr ⟨?_, fun i hi hstop => ?_⟩
    · rcases hend with hstop | ⟨hmax, -⟩
      · obtain ⟨-, op, hop, -⟩ := hstop.1
        have hlen := lt_length_of_mem_operationsAt hop
        omega
      · omega
    · exact hfree i (Nat.le_trans hfirst hi) (hback i hi hstop)

/-- A walk that goes on from the end of another one, with no other blockers, comes as far as a
single walk. -/
theorem reachableFrontier_resume (start : Frontier)
    (hlater : ∀ op, later op = true → blocks op = true) :
    reachableFrontier slots (reachableFrontier slots start blocks) later =
      reachableFrontier slots start later := by
  refine SortedMap.ext_get? fun r => ?_
  cases hget : start.get? r with
  | none =>
    have hmid := get?_reachableFrontier_eq_none hs blocks hget
    rw [get?_reachableFrontier_eq_none hs later hmid, get?_reachableFrontier_eq_none hs later hget]
  | some first =>
    obtain ⟨mid, hmid, -⟩ := exists_get?_reachableFrontier hs start blocks hget
    obtain ⟨last, hlast, -, hend⟩ := exists_get?_reachableFrontier hs start later hget
    rw [hlast, get?_reachableFrontier_eq_some_iff hs]
    exact ⟨mid, hmid, hend.resume hs hlater hget hmid⟩

/-- **Going on from where the walk has ended, with the same blockers, gets no further.** -/
theorem reachableFrontier_idem (start : Frontier) (blocks : ω → Bool) :
    reachableFrontier slots (reachableFrontier slots start blocks) blocks =
      reachableFrontier slots start blocks :=
  reachableFrontier_resume hs start fun _ => id

end Resume

/-- The gate `cz` is stopped because one of its resources has ended before it, and `swap` because it
lies before the start of its second resource. -/
theorem reachableFrontier_idem_staggered :
    let m : Instruction := { name := "m", resources := [.line 0] }
    let cz : Instruction := { name := "cz", resources := [.line 0, .line 1] }
    let x : Instruction := { name := "x", resources := [.line 1] }
    let swap : Instruction := { name := "swap", resources := [.line 2, .line 3] }
    let slots := [[m, x], [cz, swap], [x]].map Slot.ofApart
    let start : Frontier :=
      SortedMap.ofList [(.line 0, 0), (.line 1, 0), (.line 2, 1), (.line 3, 2)]
    let blocks : Instruction → Bool := fun op => op.name == "m"
    let stop := reachableFrontier slots start blocks
    (∀ slot ∈ slots, slot.Sound) ∧
      stop = SortedMap.ofList [(.line 0, 0), (.line 1, 1), (.line 2, 1), (.line 3, 3)] ∧
      reachableFrontier slots stop blocks = stop := by
  intro m cz x swap slots start blocks stop
  have hs : ∀ slot ∈ slots, slot.Sound := Slot.sound_map_ofApart (by decide)
  exact ⟨hs, by decide +kernel, reachableFrontier_idem hs start blocks⟩

end Timetable
