import Timetable.Proofs.Reach.Stopping
import Timetable.Proofs.Schedule.Insertion
import Timetable.Schedule.FrontierInsert

/-!
# Room before the next uses

A frontier can have passed operations that should stand behind it. Room is made by one gap of empty
slots, wide enough for every resource at once: the later operations come far enough, and those
before the start do not move at all. The values of the frontier on other resources move along with
the slots.

Such a value can come to a sum that is no word. The new frontier is therefore described in numbers
without a bound, and what a build answers differs from it only where one of its values is no word.

* `Settled`: what a build answers in the place of a frontier whose values have no bound.
* `Frontier.moveAlong_cases`: moving a frontier along.
* `Schedule.nextUse_bounds`: where the next use of a resource is.
* `Schedule.makeRoom_cases`, `Schedule.exists_room`: the gap, and what it does to the operations.
-/

namespace Timetable

variable {ω : Type} [Operation ω]

/-! ### Frontiers in words -/

/-- The answer of a build where the values of the frontier `exact` have no bound: the same, but a
wrapping build gives what is left of a value that is no word. -/
def Settled (build : Build) (exact final : Frontier) : Prop :=
  ∀ r, final.get? r = exact.get? r ∨
    ∃ v, exact.get? r = some v ∧ build = .wrapping ∧ 2 ^ 64 ≤ v ∧ final.get? r = some (word v)

theorem Settled.refl (build : Build) (exact : Frontier) : Settled build exact exact :=
  fun _ => .inl rfl

/-- What moving a frontier along gives, unless a checked build comes to a sum that is no word. -/
theorem Frontier.moveAlong_cases (build : Build) (frontier late : Frontier) (place n : Nat) :
    (∃ final, frontier.moveAlong build late place n = .ok final ∧
      Settled build (frontier.mapValues fun r v =>
        if late.contains r then v else Layout.cut place n v) final) ∨
    frontier.moveAlong build late place n = .error .overflow ∧ build = .checked ∧
      ∃ r v, frontier.get? r = some v ∧ late.contains r = false ∧ 2 ^ 64 ≤ v + n := by
  rw [moveAlong]
  dsimp only
  split
  · rename_i h
    obtain ⟨⟨r, v⟩, he, hstop⟩ := List.any_eq_true.1 h
    simp only [Bool.and_eq_true, Bool.not_eq_true', Build.stops_eq_true_iff] at hstop
    obtain ⟨⟨hlate, -⟩, hbuild, hsum⟩ := hstop
    exact .inr ⟨rfl, hbuild, r, v, SortedMap.mem_entries_iff.1 he, hlate, hsum⟩
  · rename_i h
    refine .inl ⟨_, rfl, fun r => ?_⟩
    simp only [SortedMap.get?_mapValues]
    cases hv : frontier.get? r with
    | none => exact .inl rfl
    | some v =>
      rw [Option.map_some, Option.map_some]
      by_cases hmove : (!late.contains r && decide (v > place)) = true
      · have hmoves := hmove
        rw [Bool.and_eq_true, Bool.not_eq_true', decide_eq_true_iff] at hmoves
        have hcut : (if late.contains r = true then v else Layout.cut place n v) = v + n := by
          rw [hmoves.1, if_neg Bool.false_ne_true, Layout.cut, if_pos hmoves.2]
        rw [if_pos hmove, hcut]
        rcases Nat.lt_or_ge (v + n) (2 ^ 64) with hlt | hge
        · exact .inl (congrArg some (word_of_lt hlt))
        · refine .inr ⟨v + n, rfl, ?_, hge, rfl⟩
          -- A checked build would have stopped.
          cases build with
          | wrapping => rfl
          | checked =>
            refine absurd (List.any_eq_true.2 ⟨(r, v), SortedMap.mem_entries_iff.2 hv, ?_⟩) h
            rw [hmove, Build.stops_eq_true_iff.2 ⟨rfl, hge⟩]
            rfl
      · have hcut : (if late.contains r = true then v else Layout.cut place n v) = v := by
          rw [Bool.and_eq_true, Bool.not_eq_true', decide_eq_true_iff, not_and] at hmove
          split
          · rfl
          · rename_i hlate
            rw [Layout.cut, if_neg (hmove (Bool.eq_false_iff.2 hlate))]
        rw [if_neg hmove, hcut]
        exact .inl rfl

namespace Schedule

/-! ### The next uses, and the room before them -/

omit [Operation ω] in
theorem get?_nextUses (slots : List (Slot ω)) (rs : List Resource) (start : Nat) (r : Resource) :
    (nextUses slots rs start).get? r
      = if r ∈ rs then some ((nextUse? slots [r] start).getD slots.length) else none :=
  SortedMap.get?_ofList_map _ rs r

/-- The next use of a resource is at or after `start`, or the length where there is none, and no
operation on the resource stands between `start` and the next use. -/
theorem nextUse_bounds {slots : List (Slot ω)} (hs : ∀ slot ∈ slots, slot.Sound) {r : Resource}
    {start v : Nat} (hv : (nextUse? slots [r] start).getD slots.length = v) :
    v ≤ slots.length ∧ (start ≤ v ∨ v = slots.length) ∧
      ∀ i op, start ≤ i → op ∈ operationsAt slots i → r ∈ resources op → v ≤ i := by
  have htouch : ∀ i op, op ∈ operationsAt slots i → r ∈ resources op →
      ∃ slot, slots[i]? = some slot ∧ slot.touches [r] = true := by
    intro i op hop hr
    obtain ⟨slot, hslot, hmem⟩ := mem_operationsAt.1 hop
    refine ⟨slot, hslot, ?_⟩
    apply (hs slot (List.mem_of_getElem? hslot)).touches_iff.2
    exact ⟨op, hmem, r, hr, List.mem_singleton.2 rfl⟩
  cases hnext : nextUse? slots [r] start with
  | none =>
    rw [hnext] at hv
    subst hv
    refine ⟨Nat.le_refl _, .inr rfl, fun i op hi hop hr => ?_⟩
    obtain ⟨slot, hslot, hyes⟩ := htouch i op hop hr
    rw [nextUse?_eq_none_iff.1 hnext i slot hi hslot] at hyes
    cases hyes
  | some k =>
    rw [hnext] at hv
    subst hv
    obtain ⟨hle, ⟨slot, hslot, -⟩, hbefore⟩ := nextUse?_eq_some_iff.1 hnext
    have hlt : k < slots.length := (List.getElem?_eq_some_iff.1 hslot).1
    refine ⟨Nat.le_of_lt hlt, .inl hle, fun i op hi hop hr => Nat.le_of_not_lt fun hik => ?_⟩
    obtain ⟨slot', hslot', hyes⟩ := htouch i op hop hr
    rw [hbefore i slot' hi hik hslot'] at hyes
    cases hyes

theorem le_shortfall {early late : Frontier} {r : Resource} {v : Nat}
    (h : late.get? r = some v) : early.getD r 0 ≤ v + shortfall early late := by
  have hle := ((Ordered.foldl_max_le_iff _).1 (Nat.le_refl (shortfall early late))).2
    (r, v) (SortedMap.mem_entries_iff.2 h)
  dsimp only at hle
  omega

/-- The shortfall is at most a bound on the values of `early`. -/
theorem shortfall_le {early late : Frontier} {b : Nat}
    (h : ∀ r v, late.get? r = some v → early.getD r 0 ≤ b) : shortfall early late ≤ b := by
  refine (Ordered.foldl_max_le_iff _).2 ⟨Nat.zero_le b, fun e he => ?_⟩
  exact Nat.le_trans (Nat.sub_le _ _) (h e.1 e.2 (SortedMap.mem_entries_iff.1 he))

omit [Operation ω] in
/-- Room is one gap of empty slots. It opens at or before the value of every resource of `late`, and
behind it each of these values has come up to the value in `early`. The other values of `early` move
along with the slots, unless a checked build comes to a sum that is no word. -/
theorem makeRoom_cases (build : Build) (s : Schedule ω) (early late : Frontier)
    (hlen : ∀ r v, late.get? r = some v → v ≤ s.length) :
    (∃ place n final, s.makeRoom build early late = .ok ({ s with
        slots := s.slots.take place ++ List.replicate n Slot.empty ++ s.slots.drop place }, final) ∧
      place ≤ s.length ∧ (place = s.length ∨ ∃ r, late.get? r = some place) ∧
      n ≤ shortfall early late ∧
      (∀ r v, late.get? r = some v → place ≤ v ∧ early.getD r 0 ≤ v + n) ∧
      Settled build (early.mapValues fun r v =>
        if late.contains r then v else Layout.cut place n v) final) ∨
    s.makeRoom build early late = .error .overflow ∧ build = .checked ∧
      ∃ r v, early.get? r = some v ∧ late.contains r = false ∧
        2 ^ 64 ≤ v + shortfall early late := by
  have hclosed : ∀ place, Settled build (early.mapValues fun r v =>
      if late.contains r then v else Layout.cut place 0 v) early := by
    intro place r
    left
    simp only [SortedMap.get?_mapValues, Layout.cut_zero, ite_self, Option.map_id']
  rw [makeRoom]
  cases hmin : late.values.min? with
  | none =>
    have hnone : late.values = [] := List.min?_eq_none_iff.1 hmin
    refine .inl ⟨s.length, 0, early, by simp [length], Nat.le_refl _, .inl rfl, Nat.zero_le _,
      fun r v hv => ?_, hclosed _⟩
    have hmem := SortedMap.mem_values_iff.2 ⟨r, hv⟩
    rw [hnone] at hmem
    cases hmem
  | some place =>
    obtain ⟨hmem, hleast⟩ := List.min?_eq_some_iff.1 hmin
    obtain ⟨r, hr⟩ := SortedMap.mem_values_iff.1 hmem
    have hgap : ∀ r v, late.get? r = some v →
        place ≤ v ∧ early.getD r 0 ≤ v + shortfall early late :=
      fun r v hv => ⟨hleast v (SortedMap.mem_values_iff.2 ⟨r, hv⟩), le_shortfall hv⟩
    have hplace := hlen r place hr
    dsimp only
    split
    · rename_i hzero
      rw [hzero] at hgap
      exact .inl ⟨place, 0, early, by simp, hplace, .inr ⟨r, hr⟩, Nat.zero_le _, hgap, hclosed place⟩
    · rcases Frontier.moveAlong_cases build early late place (shortfall early late) with
        ⟨final, hmoved, hsettled⟩ | ⟨hstop, hover⟩
      · rw [hmoved]
        exact .inl ⟨place, _, final, rfl, hplace, .inr ⟨r, hr⟩, Nat.le_refl _, hgap, hsettled⟩
      · rw [hstop]
        exact .inr ⟨rfl, hover⟩

/-- Room has been made: what stood before `start` has kept its place, and every operation that stood
there or later has come behind the frontier of its resources. The frontier of other resources has
moved along, in `exact`. -/
structure Room (s : Schedule ω) (rs : List Resource) (start : Nat) (early : Frontier)
    (place n : Nat) (room : Schedule ω) (exact : Frontier) : Prop where
  layout : Layout s.slots (Layout.spread place n) [] room.slots
  sound : room.Sound
  fixed : ∀ i < start, i < s.length → Layout.spread place n i = i
  past : ∀ i op r, start ≤ i → op ∈ operationsAt s.slots i → r ∈ resources op → r ∈ rs →
    early.getD r 0 ≤ Layout.spread place n i
  get?_exact : ∀ r, exact.get? r =
    (early.get? r).map fun v => if r ∈ rs then v else Layout.cut place n v

/-- Making room succeeds, unless a checked build comes to a sum that is no word. -/
theorem exists_room {s : Schedule ω} (hs : s.Sound) (rs : List Resource) (start : Nat)
    (early : Frontier) (build : Build) :
    (∃ place n room exact final,
      s.makeRoom build early (nextUses s.slots rs start) = .ok (room, final) ∧
      n ≤ shortfall early (nextUses s.slots rs start) ∧ s.Room rs start early place n room exact ∧
      Settled build exact final) ∨
    s.makeRoom build early (nextUses s.slots rs start) = .error .overflow ∧ build = .checked ∧
      ∃ r v, early.get? r = some v ∧ r ∉ rs ∧
        2 ^ 64 ≤ v + shortfall early (nextUses s.slots rs start) := by
  have hget : ∀ {r v}, (nextUses s.slots rs start).get? r = some v →
      (nextUse? s.slots [r] start).getD s.slots.length = v := by
    intro r v hv
    rw [get?_nextUses] at hv
    split at hv
    · exact Option.some.inj hv
    · cases hv
  have hcontains : ∀ r, (nextUses s.slots rs start).contains r = true ↔ r ∈ rs := by
    intro r
    rw [SortedMap.contains, get?_nextUses]
    split <;> simp [*]
  rcases makeRoom_cases build s early (nextUses s.slots rs start) fun r v hv =>
    (nextUse_bounds hs (hget hv)).1 with
    ⟨place, n, final, hroom, hplace, hwhere, hn, hgap, hsettled⟩ | ⟨hstop, hbuild, r, v, hv, hr, hsum⟩
  · refine .inl ⟨place, n, _, _, final, hroom, hn, ⟨Layout.openGap hplace n, ?_, ?_, ?_, ?_⟩,
      hsettled⟩
    · intro slot hmem
      rcases List.mem_append.1 hmem with hmem | hmem
      · rcases List.mem_append.1 hmem with hmem | hmem
        · exact hs slot (List.mem_of_mem_take hmem)
        · rw [List.eq_of_mem_replicate hmem]
          exact Slot.sound_empty
      · exact hs slot (List.mem_of_mem_drop hmem)
    · -- The gap opens at `start` or later, or else at the end.
      intro i hi hlen
      apply Layout.spread_of_lt
      rcases hwhere with h | ⟨r, hr⟩
      · exact h ▸ hlen
      · rcases (nextUse_bounds hs (hget hr)).2.1 with h | h
        · exact Nat.lt_of_lt_of_le hi h
        · exact h ▸ hlen
    · intro i op r hi hop hrop hr
      have hv := get?_nextUses s.slots rs start r
      rw [if_pos hr] at hv
      obtain ⟨hpv, hfar⟩ := hgap r _ hv
      have hvi := (nextUse_bounds hs (hget hv)).2.2 i op hi hop hrop
      rw [Layout.spread_of_le (Nat.le_trans hpv hvi)]
      omega
    · intro r
      rw [SortedMap.get?_mapValues]
      simp only [hcontains]
  · refine .inr ⟨hstop, hbuild, r, v, hv, fun hmem => ?_, hsum⟩
    rw [(hcontains r).2 hmem] at hr
    cases hr

end Schedule

end Timetable
