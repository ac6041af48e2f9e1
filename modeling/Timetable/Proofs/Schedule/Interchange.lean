import Timetable.Proofs.Schedule.Levels
import Mathlib.Logic.Relation

/-!
# Only the order of what conflicts counts

Two neighbours of a list that do not conflict may change places. What the schedule of the list holds
in each of its slots stays the same, only the order within a slot may change. The schedules on the
way to the whole lists differ, so they are not compared: the two neighbours change places in the
levelled record of the list, and what results is the levelled record of the other list.

* `Interchange`: two lists that differ in the places of two such neighbours.
* `Levelled.interchange`: one interchange in a levelled record.
* `exists_levelled_of_interchanges`: any number of them.
* `ofBundle_interchanges`: the schedules of the two lists.
-/

namespace Timetable

variable {ω : Type} [Operation ω]

/-- Two neighbouring operations that do not conflict have changed places. -/
inductive Interchange : List ω → List ω → Prop where
  | neighbours (before after : List ω) {a b : ω} (h : ¬Conflict a b) :
    Interchange (before ++ a :: b :: after) (before ++ b :: a :: after)

/-! ### Records -/

theorem KeepsOrder.interchange {before after : List (Nat × ω)} {e f : Nat × ω}
    (h : KeepsOrder (before ++ e :: f :: after)) (hef : ¬Conflict e.2 f.2) :
    KeepsOrder (before ++ f :: e :: after) := by
  obtain ⟨hbefore, htail, hcross⟩ := List.pairwise_append.1 h
  obtain ⟨he, htail⟩ := List.pairwise_cons.1 htail
  obtain ⟨hf, hafter⟩ := List.pairwise_cons.1 htail
  have hfe : ∀ g ∈ e :: after, Conflict f.2 g.2 → f.1 < g.1 := by
    refine List.forall_mem_cons.2 ⟨?_, hf⟩
    exact fun hconf => absurd hconf.symm hef
  have heafter : ∀ g ∈ after, Conflict e.2 g.2 → e.1 < g.1 := (List.forall_mem_cons.1 he).2
  refine List.pairwise_append.2 ⟨hbefore, ?_, fun g hg k hk => hcross g hg k ?_⟩
  · exact List.pairwise_cons.2 ⟨hfe, List.pairwise_cons.2 ⟨heafter, hafter⟩⟩
  · exact (List.Perm.swap f e after).mem_iff.2 hk

theorem Levelled.interchange {before after : List (Nat × ω)} {e f : Nat × ω}
    (h : Levelled (before ++ e :: f :: after)) (hef : ¬Conflict e.2 f.2) :
    Levelled (before ++ f :: e :: after) := by
  apply h.of_mem_iff _ (h.keepsOrder.interchange hef)
  exact fun g => ((List.Perm.swap e f after).append_left before).mem_iff

/-- The levelled record of a list becomes that of the other list by changes of places alone. -/
theorem exists_levelled_of_interchanges {ops ops' : List ω}
    (hswaps : Relation.ReflTransGen Interchange ops ops') {placed : List (Nat × ω)}
    (h : Levelled placed) (hops : placed.map Prod.snd = ops) :
    ∃ placed', placed'.map Prod.snd = ops' ∧ Levelled placed' ∧ placed'.Perm placed := by
  induction hswaps with
  | refl => exact ⟨placed, hops, h, List.Perm.refl placed⟩
  | tail _ hswap ih =>
    obtain ⟨mid, hmid, hlevelled, hperm⟩ := ih
    cases hswap with
    | neighbours before after hfree =>
      obtain ⟨front, rest, rfl, rfl, hrest⟩ := List.map_eq_append_iff.1 hmid
      obtain ⟨e, rest, rfl, rfl, hlast⟩ := List.map_eq_cons_iff.1 hrest
      obtain ⟨f, last, rfl, rfl, rfl⟩ := List.map_eq_cons_iff.1 hlast
      refine ⟨front ++ f :: e :: last, ?_, hlevelled.interchange hfree, ?_⟩
      · simp
      · exact ((List.Perm.swap e f last).append_left front).trans hperm

/-! ### Schedules -/

/-- **Only the order of what conflicts counts.** Lists that differ by changes of places between
neighbours that do not conflict have schedules of the same length that hold the same operations in
each slot, up to the order within the slot. Or neither has one, because of an operation that nests
in itself. -/
theorem ofBundle_interchanges {ops ops' : List ω} (hnd : ∀ op ∈ ops, (resources op).Nodup)
    (hswaps : Relation.ReflTransGen Interchange ops ops') :
    (∃ s s', Schedule.ofBundle (.ofList ops) .earliest = .ok s ∧
      Schedule.ofBundle (.ofList ops') .earliest = .ok s' ∧ s.length = s'.length ∧
      ∀ x, (operationsAt s.slots x).Perm (operationsAt s'.slots x)) ∨
    Schedule.RefusesNesting ops ∧ Schedule.RefusesNesting ops' := by
  obtain ⟨placed, hops, hlevelled⟩ := exists_levelled hnd
  obtain ⟨placed', hops', hlevelled', hperm⟩ := exists_levelled_of_interchanges hswaps hlevelled hops
  have hsame : ops'.Perm ops := by
    rw [← hops, ← hops']
    exact hperm.map Prod.snd
  rcases Schedule.refusesNesting_or_fit hnd with hrefused | hfit
  · obtain ⟨op, hop, hself⟩ := hrefused.1
    have hnd' : ∀ op ∈ ops', (resources op).Nodup := fun op hop => hnd op (hsame.mem_iff.1 hop)
    exact .inr ⟨hrefused, Schedule.refusesNesting hnd' ⟨op, hsame.mem_iff.2 hop, hself⟩⟩
  · obtain ⟨s, hs, -, harranged⟩ := hlevelled.ofBundle hops hfit
    obtain ⟨s', hs', -, harranged'⟩ :=
      hlevelled'.ofBundle hops' fun op hop => hfit op (hsame.mem_iff.1 hop)
    refine .inl ⟨s, s', hs, hs', ?_, fun x => ?_⟩
    · have hle := harranged.length_le harranged' fun e he => hperm.mem_iff.2 he
      have hge := harranged'.length_le harranged fun e he => hperm.mem_iff.1 he
      exact Nat.le_antisymm hle hge
    · rw [harranged.content, harranged'.content]
      exact (hperm.symm.filter _).map Prod.snd

/-- An instruction moves behind a measurement and what waits for its outcome. -/
theorem ofBundle_interchanges_behind :
    let m : Key := ⟨"m", by decide⟩
    let h : Instruction := { name := "h", resources := [.line 1] }
    let measure : Instruction :=
      { name := "measure", resources := [.line 0], writes := SortedSet.ofList [m] }
    let x : Instruction := { name := "x", resources := [.line 2], reads := SortedSet.ofList [m] }
    ((∀ op ∈ [h, measure, x], (resources op).Nodup) ∧
      Relation.ReflTransGen Interchange [h, measure, x] [measure, x, h]) ∧
    ((∃ s s', Schedule.ofBundle (.ofList [h, measure, x]) .earliest = .ok s ∧
      Schedule.ofBundle (.ofList [measure, x, h]) .earliest = .ok s' ∧ s.length = s'.length ∧
      ∀ i, (operationsAt s.slots i).Perm (operationsAt s'.slots i)) ∨
    Schedule.RefusesNesting [h, measure, x] ∧ Schedule.RefusesNesting [measure, x, h]) := by
  intro m h measure x
  have hnd : ∀ op ∈ [h, measure, x], (resources op).Nodup := by decide
  have hfirst : Interchange [h, measure, x] [measure, h, x] :=
    .neighbours [] [x] (by decide)
  have hsecond : Interchange [measure, h, x] [measure, x, h] :=
    .neighbours [measure] [] (by decide)
  have hswaps := (Relation.ReflTransGen.single hfirst).tail hsecond
  exact ⟨⟨hnd, hswaps⟩, ofBundle_interchanges hnd hswaps⟩

end Timetable
