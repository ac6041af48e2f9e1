import Timetable.Proofs.Schedule.EarliestStep
import Timetable.Proofs.Slot.Parts
import Timetable.Instruction
import Mathlib.Order.WellFounded

/-!
# What inserted operations stand before

Inserted operations stand before everything at the place of insertion or later, except when they go
in as early as they can. Then an operation may join the slot at the cursor, and the cursor moves on
behind that slot. What goes in later and acts on a resource of that slot stands behind it. No other
slot is overtaken: a single operation, and every operation as long as none before it has joined such
a slot, stands before all of them that share a resource with it.

* `EarliestStep.eq_of_passed`: the cursor moves on behind a slot only when that slot is joined.
* `AheadUnlessJoined`, `EarliestSteps.aheadUnlessJoined`: which of two operations is in front.
* `StandsAhead`: the order that the other strategies keep.
* `insert_ahead`: the order that every insertion keeps.
* `insert_earliest_overtaken`: an operation behind the one it has been inserted before.
-/

namespace Timetable

variable {ω : Type} [Operation ω]

/-! ### The slots that the cursor passes -/

/-- A step moves the cursor on behind an old slot only by joining that slot. -/
theorem EarliestStep.eq_of_passed {s s' : Schedule ω} {k p : Nat} {op : ω} {moved : Nat → Nat}
    (h : EarliestStep s k op moved p s') {i : Nat} (hi : k ≤ i)
    (hpassed : moved i < max k (p + 1)) : p = moved i := by
  rcases h.opens with ⟨rfl, rfl, -, -⟩ | ⟨rfl, hle, -⟩
  · rw [Layout.skip_of_le hi] at hpassed
    omega
  · rw [id] at hpassed ⊢
    omega

/-- Of an operation `e` that has gone in after those of `earlier`, and an old one in the slot of
index `i`: `e` is in front, unless one of `earlier` has joined the slot. Then it is behind. -/
def AheadUnlessJoined (moved : Nat → Nat) (earlier : List (Nat × ω)) (e : Nat × ω) (i : Nat) :
    Prop :=
  (∀ d ∈ earlier, d.1 ≠ moved i) ∧ e.1 < moved i ∨ (∃ d ∈ earlier, d.1 = moved i) ∧ moved i < e.1

/-- An operation is behind the slots at the cursor or later that operations before it have joined,
and in front of the others that act on its resources. -/
theorem EarliestSteps.aheadUnlessJoined {s s' : Schedule ω} {k k' : Nat} {moved : Nat → Nat}
    {landed : List (Nat × ω)} (h : EarliestSteps s k moved landed s' k')
    {earlier later : List (Nat × ω)} {e : Nat × ω} (hsplit : landed = earlier ++ e :: later)
    {i : Nat} (hi : k ≤ i) {a : ω} (ha : a ∈ operationsAt s.slots i)
    (hshare : SharesResource a e.2) : AheadUnlessJoined moved earlier e i := by
  -- The slot that is followed through the steps moves along, until the cursor passes it.
  induction h generalizing earlier i a with
  | refl hs hk => exact absurd hsplit (by simp)
  | @step s mid s' k p k' op moved₁ moved' landed first rest ih =>
    have hmono := rest.insertion.layout.strictMono
    cases earlier with
    | nil =>
      rw [List.nil_append] at hsplit
      cases hsplit
      refine .inl ⟨by simp, ?_⟩
      exact Nat.lt_of_lt_of_le (first.before i hi a ha hshare.symm) hmono.le_apply
    | cons d earlier =>
      rw [List.cons_append] at hsplit
      cases hsplit
      have hmem : a ∈ operationsAt mid.slots (moved₁ i) := first.layout.mem_of_moved ha
      rcases Nat.lt_or_ge (moved₁ i) (max k (p + 1)) with hpassed | hahead
      · -- The first operation has joined the slot, and everything later lands behind it.
        have hfixed : moved' (moved₁ i) = moved₁ i := rest.insertion.fixed _ hpassed
        refine .inr ⟨⟨_, List.mem_cons_self, ?_⟩, ?_⟩
        · rw [Function.comp_apply, hfixed]
          exact first.eq_of_passed hi hpassed
        · rw [Function.comp_apply, hfixed]
          exact rest.insertion.behind e (by simp) _ hpassed a hmem hshare
      · have hne : p ≠ (moved' ∘ moved₁) i := by
          have hle : moved₁ i ≤ moved' (moved₁ i) := hmono.le_apply
          rw [Function.comp_apply]
          omega
        rcases ih rfl hahead hmem hshare with ⟨hfree, hlt⟩ | ⟨⟨d, hd, hjoined⟩, hlt⟩
        · exact .inl ⟨List.forall_mem_cons.2 ⟨hne, hfree⟩, hlt⟩
        · exact .inr ⟨⟨d, List.mem_cons_of_mem _ hd, hjoined⟩, hlt⟩

/-! ### The order -/

/-- Every inserted operation is in front of the operations that share a resource with it and stood
at the index or later. -/
def StandsAhead (s : Schedule ω) (index : Nat) (moved : Nat → Nat) (landed : List (Nat × ω)) :
    Prop :=
  ∀ e ∈ landed, ∀ i, min index s.length ≤ i → ∀ a ∈ operationsAt s.slots i,
    SharesResource a e.2 → e.1 < moved i

/-- The same, but for operations in slots that an inserted operation has joined: what is inserted
after that one is behind them. -/
def StandsAheadUnlessJoined (s : Schedule ω) (index : Nat) (moved : Nat → Nat)
    (landed : List (Nat × ω)) : Prop :=
  ∀ earlier e later, landed = earlier ++ e :: later →
    ∀ i, min index s.length ≤ i → ∀ a ∈ operationsAt s.slots i,
      SharesResource a e.2 → AheadUnlessJoined moved earlier e i

/-- Where no operation but the last one joins a slot at the index or later, none is overtaken. -/
theorem StandsAheadUnlessJoined.standsAhead {s : Schedule ω} {index : Nat} {moved : Nat → Nat}
    {landed : List (Nat × ω)} (h : StandsAheadUnlessJoined s index moved landed)
    (hfree : ∀ d ∈ landed.dropLast, ∀ i, min index s.length ≤ i → i < s.length → d.1 ≠ moved i) :
    StandsAhead s index moved landed := by
  intro e he i hi a ha hshare
  obtain ⟨earlier, later, rfl⟩ := List.append_of_mem he
  rcases h earlier e later rfl i hi a ha hshare with ⟨-, hlt⟩ | ⟨⟨d, hd, hjoined⟩, -⟩
  · exact hlt
  · have hd : d ∈ (earlier ++ e :: later).dropLast := by
      rw [List.dropLast_append_of_ne_nil (List.cons_ne_nil e later)]
      exact List.mem_append_left _ hd
    exact absurd hjoined (hfree d hd i hi (lt_length_of_mem_operationsAt ha))

/-- What is not inserted as early as it can go lands before every slot at the index or later. -/
theorem Insertion.ahead_of_ne {s s' : Schedule ω} {k k' : Nat} {moved : Nat → Nat}
    {landed : List (Nat × ω)} {strategy : Strategy} (h : Insertion strategy s k moved landed s' k')
    (hne : strategy ≠ .earliest) : ∀ e ∈ landed, ∀ i, k ≤ i → e.1 < moved i := by
  intro e he i hi
  exact Nat.lt_of_lt_of_le (h.landed_lt e he) (h.ahead hne i hi)

/-- **Inserted operations stand before what they were inserted before, but for the slots that are
joined.** Of a bare operation that is inserted and one that stood at the index or later and shares a
resource with it, the inserted one is in front, unless it goes in as early as it can and an
operation inserted before it has joined the slot of the other. Then it is behind. -/
theorem insert_ahead {s : Schedule ω} (hs : s.Sound) {bundle : Bundle ω}
    (hbare : ∀ slot, Item.slot slot ∉ bundle.items) (index : Nat) (strategy : Strategy) {next : Nat}
    (h : (s.insert index bundle strategy).answer = .ok next) :
    ∃ moved landed, Layout s.slots moved landed (s.insert index bundle strategy).left.slots ∧
      landed.map Prod.snd = bundle.operations ∧ StandsAheadUnlessJoined s index moved landed ∧
      ((strategy = .earliest → ∀ d ∈ landed.dropLast, ∀ i, min index s.length ≤ i → i < s.length →
        d.1 ≠ moved i) → StandsAhead s index moved landed) := by
  by_cases hstrategy : strategy = .earliest
  · subst hstrategy
    obtain ⟨moved, landed, hops, hsteps⟩ := Schedule.earliestSteps_of_insert hs hbare h
    have hahead : StandsAheadUnlessJoined s index moved landed := by
      intro earlier e later hsplit i hi a ha hshare
      exact hsteps.aheadUnlessJoined hsplit hi ha hshare
    refine ⟨moved, landed, hsteps.insertion.layout, hops, hahead, fun hfree => ?_⟩
    exact hahead.standsAhead (hfree rfl)
  · have hb : bundle.Sound := by
      intro item hitem
      cases item with
      | operation op => trivial
      | slot slot => exact absurd hitem (hbare slot)
    obtain ⟨moved, landed, hops, hins⟩ := Schedule.insertion_of_insert hs hb h
    have hahead := hins.ahead_of_ne hstrategy
    refine ⟨moved, landed, hins.layout, hops, ?_, fun _ e he i hi a _ _ => hahead e he i hi⟩
    intro earlier e later hsplit i hi a _ _
    refine .inl ⟨fun d hd => Nat.ne_of_lt (hahead d ?_ i hi), hahead e ?_ i hi⟩
    · rw [hsplit]
      exact List.mem_append_left _ hd
    · rw [hsplit]
      exact List.mem_append_right _ List.mem_cons_self

/-- An instruction joins the slot at the index, the next one is refused by the slot behind it and
goes in front of that one. -/
theorem insert_ahead_joined :
    let a : Instruction := { name := "a", resources := [.line 0] }
    let b : Instruction := { name := "b", resources := [.line 0, .line 2] }
    let x : Instruction := { name := "x", resources := [.line 1] }
    let y : Instruction := { name := "y", resources := [.line 0] }
    let bundle : Bundle Instruction := .sequence [.operation x, .operation y]
    let s := Schedule.ofSlots ([[a], [b]].map Slot.ofApart)
    (s.Sound ∧ (∀ slot, Item.slot slot ∉ bundle.items) ∧
      (s.insert 0 bundle .earliest).answer = .ok 2) ∧
    ∃ moved landed, Layout s.slots moved landed (s.insert 0 bundle .earliest).left.slots ∧
      landed.map Prod.snd = bundle.operations ∧ StandsAheadUnlessJoined s 0 moved landed ∧
      ((Strategy.earliest = .earliest → ∀ d ∈ landed.dropLast, ∀ i, min 0 s.length ≤ i →
        i < s.length → d.1 ≠ moved i) → StandsAhead s 0 moved landed) := by
  intro a b x y bundle s
  have hs : s.Sound := Slot.sound_map_ofApart (by decide)
  have hbare : ∀ t, Item.slot t ∉ bundle.items := by
    show ∀ t, Item.slot t ∉ [Item.operation x, Item.operation y]
    simp
  have hok : (s.insert 0 bundle .earliest).answer = .ok 2 := by decide +kernel
  exact ⟨⟨hs, hbare, hok⟩, insert_ahead hs hbare 0 .earliest hok⟩

/-- An instruction is inserted before one on its resource and ends behind it: the one that is
inserted before it has joined that slot. -/
theorem insert_earliest_overtaken :
    let a : Instruction := { name := "a", resources := [.line 0] }
    let x : Instruction := { name := "x", resources := [.line 1] }
    let y : Instruction := { name := "y", resources := [.line 0] }
    let bundle : Bundle Instruction := .sequence [.operation x, .operation y]
    let s := Schedule.ofSlots ([[a]].map Slot.ofApart)
    s.Sound ∧ (∀ slot, Item.slot slot ∉ bundle.items) ∧
      (s.insert 0 bundle .earliest).answer = .ok 2 ∧
      ¬∃ moved landed, Layout s.slots moved landed (s.insert 0 bundle .earliest).left.slots ∧
        landed.map Prod.snd = bundle.operations ∧ StandsAhead s 0 moved landed := by
  intro a x y bundle s
  have hs : s.Sound := Slot.sound_map_ofApart (by decide)
  have hbare : ∀ t, Item.slot t ∉ bundle.items := by
    show ∀ t, Item.slot t ∉ [Item.operation x, Item.operation y]
    simp
  refine ⟨hs, hbare, by decide +kernel, ?_⟩
  rintro ⟨moved, landed, hlayout, hops, hahead⟩
  have hops : landed.map Prod.snd = [x, y] := hops
  obtain ⟨e, he, hey⟩ : ∃ e ∈ landed, e.2 = y := List.mem_map.1 (hops ▸ by simp)
  have hlt : e.1 < moved 0 := by
    have ha : a ∈ operationsAt s.slots 0 := by
      show a ∈ [a]
      exact List.mem_cons_self
    refine hahead e he 0 (Nat.zero_le _) a ha ?_
    rw [hey]
    exact ⟨.line 0, by decide, by decide⟩
  have htwo : moved 0 < 2 :=
    Nat.lt_of_lt_of_eq (hlayout.moved_lt 0 (by decide)) (by decide +kernel)
  -- The first slot is the only one in front of another, and the instruction is not in it.
  have hfound := hlayout.mem_of_landed he
  rw [hey, show e.1 = 0 by omega] at hfound
  have hname := List.mem_map_of_mem (f := Instruction.name) hfound
  exact absurd hname (by decide +kernel)

end Timetable
