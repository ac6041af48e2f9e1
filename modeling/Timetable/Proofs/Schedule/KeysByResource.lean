import Timetable.Proofs.Schedule.Landing
import Timetable.Proofs.Schedule.RangeOverflow
import Mathlib.Logic.Relation

/-!
# Slots chosen by resource, and the order on keys

An operation that goes into a range takes the first slot that lets it in, and one that goes in behind
a frontier takes the first slot behind those of its resources. Neither looks at the keys. What this
leaves of the order on keys differs. In a range the slots never go down, so a reader is never in front
of its writer, but may be in the slot of it. Behind a frontier an operation is behind another one
exactly when some operation on its own resources holds it back, and a reader may end up in front of
its writer. Only operations that are tied together by others, each on a resource of the next one, are
sure to be in order.

* `KeysInSequence`: the order on keys, as it ought to be.
* `Tied`, `KeysTied`: operations tied together by resources, and `Tied.standsAt_lt`.
* `PlacedByFirstFit.le`, `PlacedByFirstFit.eq_iff`: two operations in a range.
* `PlacedByResource`: the slots behind a frontier, and `Schedule.isLeast_landings`.
* `RangeKeys`, `FrontierKeys`: what each request leaves of the order.
* `insertions_keys`: both together.
* `insertions_keys_together`: a reader in the slot of its writer, and one in front of it.
-/

namespace Timetable

variable {ω : Type} [Operation ω]

/-- Of two operations of the record that share a key the second one is in a later slot. -/
def KeysInSequence (placed : List (Nat × ω)) : Prop :=
  placed.Pairwise fun a b => SharesKey a.2 b.2 → a.1 < b.1

/-! ### Operations tied together -/

/-- The operation at `i` comes before the one at `j` and shares a resource with it. -/
def SharesAt (ops : List ω) (i j : Nat) : Prop :=
  i < j ∧ ∃ a b, ops[i]? = some a ∧ ops[j]? = some b ∧ SharesResource a b

/-- From the operation at `i` one comes to the operation at `j` by operations that each share a
resource with the one before it. -/
def Tied (ops : List ω) : Nat → Nat → Prop :=
  Relation.TransGen (SharesAt ops)

/-- All operations that share a key are tied together. -/
def KeysTied (ops : List ω) : Prop :=
  ∀ i j a b, i < j → ops[i]? = some a → ops[j]? = some b → SharesKey a b → Tied ops i j

omit [Operation ω] in
/-- The slot of the operation at `i`. -/
def standsAt (placed : List (Nat × ω)) (i : Nat) : Nat :=
  (placed[i]?.map Prod.fst).getD 0

omit [Operation ω] in
theorem standsAt_of_lt {placed : List (Nat × ω)} {i : Nat} (h : i < placed.length) :
    standsAt placed i = placed[i].1 := by
  rw [standsAt, List.getElem?_eq_getElem h]
  rfl

section Order

variable {placed : List (Nat × ω)} {i j : Nat}
variable (h : placed.Pairwise fun a b => SharesResource a.2 b.2 → a.1 < b.1)
include h

theorem SharesAt.standsAt_lt (hshares : SharesAt (placed.map Prod.snd) i j) :
    standsAt placed i < standsAt placed j := by
  obtain ⟨hij, a, b, ha, hb, hshare⟩ := hshares
  obtain ⟨hi, rfl⟩ := List.getElem?_eq_some_iff.1 ha
  obtain ⟨hj, rfl⟩ := List.getElem?_eq_some_iff.1 hb
  rw [List.getElem_map, List.getElem_map] at hshare
  rw [List.length_map] at hi hj
  rw [standsAt_of_lt hi, standsAt_of_lt hj]
  exact List.pairwise_iff_getElem.1 h i j hi hj hij hshare

/-- Where operations on one resource are in order, so are those that are tied together. -/
theorem Tied.standsAt_lt (htied : Tied (placed.map Prod.snd) i j) :
    standsAt placed i < standsAt placed j := by
  induction htied with
  | single hshares => exact hshares.standsAt_lt h
  | tail _ hshares ih => exact Nat.lt_trans ih (hshares.standsAt_lt h)

/-- Order on resources is order on keys where the operations that share a key are tied together. -/
theorem KeysTied.keysInSequence (hkeys : KeysTied (placed.map Prod.snd)) :
    KeysInSequence placed := by
  refine List.pairwise_iff_getElem.2 fun i j hi hj hij hkey => ?_
  have hop : ∀ k (hk : k < placed.length), (placed.map Prod.snd)[k]? = some placed[k].2 := by
    intro k hk
    rw [List.getElem?_map, List.getElem?_eq_getElem hk]
    rfl
  have hlt := (hkeys i j _ _ hij (hop i hi) (hop j hj) hkey).standsAt_lt h
  rwa [standsAt_of_lt hi, standsAt_of_lt hj] at hlt

end Order

/-! ### In a range -/

namespace PlacedByFirstFit

variable {s : Schedule ω} {start stop : Nat} {placed : List (Nat × ω)}

theorem left {later : List (Nat × ω)} (h : PlacedByFirstFit s start stop (placed ++ later)) :
    PlacedByFirstFit s start stop placed := by
  intro earlier e rest hsplit
  exact h earlier e (rest ++ later) (by rw [hsplit, List.append_assoc, List.cons_append])

/-- The last operation of the record is in the last slot. -/
theorem le_cursorAfter (h : PlacedByFirstFit s start stop placed) :
    ∀ d ∈ placed, d.1 ≤ cursorAfter start placed := by
  induction placed using List.reverseRecOn with
  | nil => simp
  | append_singleton earlier e ih =>
    obtain ⟨hcursor, -⟩ := (h earlier e [] rfl).1
    rw [cursorAfter_concat]
    intro d hd
    rcases List.mem_append.1 hd with hd | hd
    · exact Nat.le_trans (ih h.left d hd) hcursor
    · rw [List.mem_singleton.1 hd]

variable {earlier later : List (Nat × ω)} {d e : Nat × ω}

/-- The slots do not go down. -/
theorem le (h : PlacedByFirstFit s start stop (earlier ++ e :: later)) (hd : d ∈ earlier) :
    d.1 ≤ e.1 :=
  Nat.le_trans (h.left.le_cursorAfter d hd) (h earlier e later rfl).1.1

/-- An operation is in the slot of an earlier one when no operation has gone past that slot and the
slot still takes it. -/
theorem eq_iff (h : PlacedByFirstFit s start stop (earlier ++ e :: later)) (hmem : d ∈ earlier) :
    d.1 = e.1 ↔ cursorAfter start earlier = d.1 ∧ TakesAfter s earlier d.1 e.2 := by
  have hcursor := h.left.le_cursorAfter d hmem
  obtain ⟨⟨hle, hlt, htakes⟩, hleast⟩ := h earlier e later rfl
  constructor
  · intro heq
    rw [← heq] at hle htakes
    exact ⟨Nat.le_antisymm hle hcursor, htakes⟩
  · rintro ⟨heq, htakes⟩
    have hd : d.1 < stop := Nat.lt_of_le_of_lt (h.le hmem) hlt
    exact Nat.le_antisymm (h.le hmem) (hleast ⟨Nat.le_of_eq heq, hd, htakes⟩)

end PlacedByFirstFit

/-- What filling a range leaves of the order on keys. -/
structure RangeKeys (s : Schedule ω) (start stop : Nat) (filled spilled : List (Nat × ω))
    (moved : Nat → Nat) : Prop where
  /-- In the range no operation is in front of an earlier one, whether they share a key or not. The
  two are in one slot when none between them has gone further and the slot takes the second one. -/
  in_range : ∀ earlier e later, filled = earlier ++ e :: later → ∀ d ∈ earlier,
    d.1 ≤ e.1 ∧ (d.1 = e.1 ↔ cursorAfter start earlier = d.1 ∧ TakesAfter s earlier d.1 e.2)
  /-- What has been left over is behind the operations that it shares a key with, or in the slot of
  one after it has been turned away behind the range. -/
  left_over : ∀ earlier e later, spilled = earlier ++ e :: later → ∀ d ∈ filled ++ earlier,
    SharesKey d.2 e.2 → d.1 < e.1 ∨ d.1 = e.1 ∧ TurnedAway s stop moved e
  tied : KeysTied ((filled ++ spilled).map Prod.snd) → KeysInSequence (filled ++ spilled)

theorem RangeRun.rangeKeys {s mid s' : Schedule ω} {start stop next : Nat}
    {filled spilled : List (Nat × ω)} {moved : Nat → Nat}
    (h : RangeRun s mid s' start stop filled spilled moved next) :
    RangeKeys s start stop filled spilled moved where
  in_range earlier e later hsplit d hd := by
    have hfit := hsplit ▸ h.filling.firstFit
    exact ⟨hfit.le hd, hfit.eq_iff hd⟩
  left_over earlier e later hsplit d hd hkey := by
    have hsame : d.1 < e.1 ∨ d.1 = e.1 ∧ TurnedAway mid stop moved e := by
      rcases List.mem_append.1 hd with hd | hd
      · exact h.overflow.keys_behind e (by simp [hsplit]) d.1 (h.filling.within d hd).2.2 d.2
          (h.filling.layout.mem_of_landed hd) hkey
      · have hkeys := hsplit ▸ h.overflow.keys_ordered
        exact (List.pairwise_append.1 hkeys).2.2 d hd e List.mem_cons_self hkey
    -- Behind the range the slots are as they were before it was filled.
    refine hsame.imp_right fun haway => ⟨haway.1, ?_⟩
    obtain ⟨i, hi, hlt, hrefused⟩ := haway.2
    refine ⟨i, hi, hlt, ?_⟩
    rw [← hrefused]
    exact (Schedule.fits_congr h.filling.acceptance (h.filling.beside i (.inr hi)) e.2).symm
  tied htied := htied.keysInSequence h.ordered

/-! ### Behind a frontier -/

/-- Every operation of the record is in the first slot from `start` on that is behind the operations
on its resources that come before it in the record. -/
def PlacedByResource (start : Nat) (placed : List (Nat × ω)) : Prop :=
  ∀ earlier e later, placed = earlier ++ e :: later →
    IsLeast {j | start ≤ j ∧ ∀ d ∈ earlier, SharesResource d.2 e.2 → d.1 < j} e.1

/-- An operation is behind an earlier one exactly when an operation on one of its own resources holds
it back, which comes before it and is in the slot of that one or a later slot. -/
theorem PlacedByResource.lt_iff {start : Nat} {earlier later : List (Nat × ω)} {d e : Nat × ω}
    (h : PlacedByResource start (earlier ++ e :: later)) (hd : start ≤ d.1) :
    d.1 < e.1 ↔ ∃ c ∈ earlier, SharesResource c.2 e.2 ∧ d.1 ≤ c.1 := by
  obtain ⟨⟨hstart, hbehind⟩, hleast⟩ := h earlier e later rfl
  constructor
  · intro hlt
    -- If nothing held it back, it would be in the slot of the other one or in front of it.
    by_contra hfree
    push Not at hfree
    exact Nat.not_le.2 hlt (hleast ⟨hd, hfree⟩)
  · rintro ⟨c, hc, hshare, hle⟩
    exact Nat.lt_of_le_of_lt hle (hbehind c hc hshare)

namespace Schedule

/-- The frontier that an operation has moved stands for the operation. -/
theorem moved_le_iff {op op' : ω} {frontier : Frontier} {landing j : Nat}
    (h : ∀ r ∈ resources op, frontier.getD r 0 ≤ landing) :
    (∀ r ∈ resources op', ((resources op).foldl
        (fun f r => f.insert r (max (f.getD r 0) (landing + 1))) frontier).getD r 0 ≤ j) ↔
      (∀ r ∈ resources op', frontier.getD r 0 ≤ j) ∧ (SharesResource op op' → landing < j) := by
  have hmoved : ∀ r, ((resources op).foldl
      (fun f r => f.insert r (max (f.getD r 0) (landing + 1))) frontier).getD r 0
        = if r ∈ resources op then landing + 1 else frontier.getD r 0 := by
    intro r
    rw [SortedMap.getD, get?_raise_past h]
    split <;> rfl
  simp only [hmoved]
  constructor
  · intro hall
    refine ⟨fun r hr => ?_, ?_⟩
    · have hle := hall r hr
      split at hle
      · rename_i hop
        exact Nat.le_trans (h r hop) (Nat.le_of_succ_le hle)
      · exact hle
    · rintro ⟨r, hop, hr⟩
      have hle := hall r hr
      rwa [if_pos hop] at hle
  · rintro ⟨hold, hnew⟩ r hr
    split
    · rename_i hop
      exact hnew ⟨r, hop, hr⟩
    · exact hold r hr

/-- The slot of an operation is the first one from `start` on behind the frontier of its resources
and behind the operations on its resources that come before it. -/
theorem isLeast_landings {start : Nat} {ops : List ω} {frontier : Frontier}
    {earlier later : List (Nat × ω)} {e : Nat × ω}
    (hsplit : (landings start ops frontier).1 = earlier ++ e :: later) :
    IsLeast {j | start ≤ j ∧ (∀ r ∈ resources e.2, frontier.getD r 0 ≤ j) ∧
      ∀ d ∈ earlier, SharesResource d.2 e.2 → d.1 < j} e.1 := by
  induction ops generalizing frontier earlier with
  | nil => simp [landings] at hsplit
  | cons op ops ih =>
    rw [landings] at hsplit
    dsimp only at hsplit
    generalize hland : (resources op).foldl (fun at_ r => max at_ (frontier.getD r 0)) start
      = landing at hsplit
    have hreach : ∀ j, landing ≤ j ↔ start ≤ j ∧ ∀ r ∈ resources op, frontier.getD r 0 ≤ j := by
      intro j
      rw [← hland]
      exact Ordered.foldl_max_le_iff _
    obtain ⟨hstart, hbehind⟩ := (hreach landing).1 (Nat.le_refl landing)
    cases earlier with
    | nil =>
      obtain ⟨rfl, -⟩ := List.cons.inj hsplit
      exact ⟨⟨hstart, hbehind, by simp⟩, fun j hj => (hreach j).2 ⟨hj.1, hj.2.1⟩⟩
    | cons first earlier =>
      obtain ⟨rfl, hrest⟩ := List.cons.inj hsplit
      have hleast := ih hrest
      simp only [moved_le_iff hbehind, and_assoc] at hleast
      simpa only [List.forall_mem_cons] using hleast

end Schedule

/-- What an insertion behind a frontier leaves of the order on keys. -/
structure FrontierKeys (start : Nat) (landed : List (Nat × ω)) : Prop where
  placed : PlacedByResource start landed
  /-- An operation is behind an earlier one, whether they share a key or not, exactly when one of the
  operations that hold it back, on a resource of its own, is in the slot of the earlier one or in a
  later slot. -/
  held_back : ∀ earlier e later, landed = earlier ++ e :: later → ∀ d ∈ earlier,
    (d.1 < e.1 ↔ ∃ c ∈ earlier, SharesResource c.2 e.2 ∧ d.1 ≤ c.1)
  tied : KeysTied (landed.map Prod.snd) → KeysInSequence landed

theorem InsertedBehind.frontierKeys {s s' : Schedule ω} {start : Nat} {ops : List ω}
    {moved : Nat → Nat} {landed : List (Nat × ω)}
    (h : InsertedBehind s start ops moved landed s') (hplaced : PlacedByResource start landed) :
    FrontierKeys start landed where
  placed := hplaced
  held_back earlier e later hsplit d hd := by
    have hmem : d ∈ landed := hsplit ▸ List.mem_append_left _ hd
    exact (hsplit ▸ hplaced).lt_iff (h.start_le d hmem)
  tied htied := htied.keysInSequence h.ordered

/-- Where the frontier of its resources has not passed `start`, an operation is held back by the
other operations alone. -/
theorem Schedule.placedByResource_landings {start : Nat} {ops : List ω} {frontier : Frontier}
    (h : ∀ op ∈ ops, ∀ r ∈ resources op, frontier.getD r 0 ≤ start) :
    PlacedByResource start (landings start ops frontier).1 := by
  intro earlier e later hsplit
  have hop : e.2 ∈ ops := by
    rw [← (landings_landings start ops frontier).inserted, hsplit]
    simp
  obtain ⟨⟨hstart, -, hbehind⟩, hleast⟩ := isLeast_landings hsplit
  refine ⟨⟨hstart, hbehind⟩, fun j hj => hleast ⟨hj.1, fun r hr => ?_, hj.2⟩⟩
  exact Nat.le_trans (h e.2 hop r hr) hj.1

/-! ### Both requests -/

/-- **Slots that are chosen by resource keep the order on resources, not that on keys.** In a range no
operation gets in front of one that it shares a key with, but it may end in the same slot. Behind a
frontier it is behind the other one exactly when something on its own resources holds it back there;
otherwise it is in the same slot or in front of it. Where the operations that share a key are tied
together by resources, all of them are in order. -/
theorem insertions_keys {s : Schedule ω} (hs : s.Sound) (bundle : Bundle ω) :
    (∀ start stop next, (s.insertIntoRange bundle start stop).answer = .ok next →
      ∃ filled spilled moved, (filled ++ spilled).map Prod.snd = bundle.operations ∧
        FilledRange s start stop filled spilled moved (s.insertIntoRange bundle start stop).left ∧
        RangeKeys s start stop filled spilled moved) ∧
    ∀ build start frontier final,
      (s.insertAtFrontier build bundle start frontier).answer = .ok final →
      ∃ moved landed, InsertedBehind s start bundle.operations moved landed
          (s.insertAtFrontier build bundle start frontier).left ∧
        FrontierKeys start landed := by
  constructor
  · intro start stop next h
    obtain ⟨mid, filled, spilled, moved, hops, hrun⟩ := Schedule.rangeRun_of_insertIntoRange hs h
    exact ⟨filled, spilled, moved, hops, hrun.filledRange, hrun.rangeKeys⟩
  · intro build start frontier final h
    obtain ⟨exact, moved, hlanded⟩ := Schedule.landed_insertAtFrontier hs h
    have hplaced := Schedule.placedByResource_landings (Schedule.fit_of_insertAtFrontier h).2
    exact ⟨moved, _, hlanded.behind, hlanded.behind.frontierKeys hplaced⟩

/-- A measurement, an instruction that waits for its outcome, and one between them that is on the
resources of both. -/
theorem insertions_keys_tied :
    let m : Key := ⟨"m", by decide⟩
    let measure : Instruction :=
      { name := "measure", resources := [.line 0], writes := SortedSet.ofList [m] }
    let h : Instruction := { name := "h", resources := [.line 0, .line 1] }
    let x : Instruction :=
      { name := "x", resources := [.line 1], reads := SortedSet.ofList [m] }
    let bundle : Bundle Instruction := .ofList [measure, h, x]
    let s := Schedule.ofSlots ([[], []].map Slot.ofApart)
    let final : Frontier := SortedMap.ofList [(.line 0, 3), (.line 1, 4)]
    (s.Sound ∧ (s.insertIntoRange bundle 0 2).answer = .ok 3 ∧
      (s.insertAtFrontier .checked bundle 1 ∅).answer = .ok final) ∧
    (∃ filled spilled moved, (filled ++ spilled).map Prod.snd = bundle.operations ∧
      FilledRange s 0 2 filled spilled moved (s.insertIntoRange bundle 0 2).left ∧
      RangeKeys s 0 2 filled spilled moved) ∧
    ∃ moved landed, InsertedBehind s 1 bundle.operations moved landed
        (s.insertAtFrontier .checked bundle 1 ∅).left ∧ FrontierKeys 1 landed := by
  intro m measure h x bundle s final
  have hs : s.Sound := Slot.sound_map_ofApart (by decide)
  have hrange : (s.insertIntoRange bundle 0 2).answer = .ok 3 := by decide +kernel
  have hfront : (s.insertAtFrontier .checked bundle 1 ∅).answer = .ok final := by decide +kernel
  obtain ⟨hkeys, hkeys'⟩ := insertions_keys hs bundle
  exact ⟨⟨hs, hrange, hfront⟩, hkeys 0 2 3 hrange, hkeys' .checked 1 ∅ final hfront⟩

/-- Where the order on keys is kept, the two operations are found in two slots, in order. -/
theorem KeysInSequence.exists_lt {s s' : Schedule ω} {moved : Nat → Nat} {landed : List (Nat × ω)}
    (h : KeysInSequence landed) (hlayout : Layout s.slots moved landed s'.slots) {i j : Nat}
    (hij : i < j) {a b : ω} (ha : (landed.map Prod.snd)[i]? = some a)
    (hb : (landed.map Prod.snd)[j]? = some b) (hkey : SharesKey a b) :
    ∃ p q, p < q ∧ a ∈ operationsAt s'.slots p ∧ b ∈ operationsAt s'.slots q := by
  obtain ⟨hi, rfl⟩ := List.getElem?_eq_some_iff.1 ha
  obtain ⟨hj, rfl⟩ := List.getElem?_eq_some_iff.1 hb
  simp only [List.getElem_map] at hkey ⊢
  rw [List.length_map] at hi hj
  exact ⟨_, _, List.pairwise_iff_getElem.1 h i j hi hj hij hkey,
    hlayout.mem_of_landed (List.getElem_mem hi), hlayout.mem_of_landed (List.getElem_mem hj)⟩

/-- In a range an instruction ends in the slot of the measurement it waits for, because nothing in it
acts on its resource. Behind a frontier, where something is in the way of the measurement but not of
the instruction, it ends in front of it. -/
theorem insertions_keys_together :
    let m : Key := ⟨"m", by decide⟩
    let a : Instruction := { name := "a", resources := [.line 0] }
    let measure : Instruction :=
      { name := "measure", resources := [.line 0], writes := SortedSet.ofList [m] }
    let x : Instruction :=
      { name := "x", resources := [.line 1], reads := SortedSet.ofList [m] }
    let s := Schedule.ofSlots ([[], []].map Slot.ofApart)
    let range := s.insertIntoRange (.ofList [measure, x]) 0 2
    let front := s.insertAtFrontier .checked (.ofList [a, measure, x]) 0 ∅
    s.Sound ∧
      (range.answer = .ok 2 ∧
        ¬∃ moved landed, Layout s.slots moved landed range.left.slots ∧
          landed.map Prod.snd = [measure, x] ∧ KeysInSequence landed) ∧
      front.answer = .ok (SortedMap.ofList [(.line 0, 2), (.line 1, 1)]) ∧
        ¬∃ moved landed, Layout s.slots moved landed front.left.slots ∧
          landed.map Prod.snd = [a, measure, x] ∧ KeysInSequence landed := by
  intro m a measure x s range front
  have hkey : SharesKey measure x := sharesKey_iff.2 (by decide +kernel)
  have hlength : range.left.slots.length = 2 ∧ front.left.slots.length = 2 := by decide +kernel
  -- Both times the instruction is in the first slot, and in no other one.
  have hfirst : ∀ q < 2, "x" ∈ (operationsAt range.left.slots q).map Instruction.name ∨
      "x" ∈ (operationsAt front.left.slots q).map Instruction.name → q = 0 := by decide +kernel
  have hs : s.Sound := Slot.sound_map_ofApart (by decide)
  have hrange : range.answer = .ok 2 := by decide +kernel
  have hfront : front.answer = .ok (SortedMap.ofList [(.line 0, 2), (.line 1, 1)]) := by
    decide +kernel
  refine ⟨hs, ⟨hrange, ?_⟩, hfront, ?_⟩
  · rintro ⟨moved, landed, hlayout, hops, hkeys⟩
    obtain ⟨p, q, hpq, -, hq⟩ := hkeys.exists_lt hlayout (i := 0) (j := 1) (by decide)
      (by rw [hops]; rfl) (by rw [hops]; rfl) hkey
    have hlt : q < 2 := hlength.1 ▸ lt_length_of_mem_operationsAt hq
    have hq0 := hfirst q hlt (.inl (List.mem_map_of_mem hq))
    omega
  · rintro ⟨moved, landed, hlayout, hops, hkeys⟩
    obtain ⟨p, q, hpq, -, hq⟩ := hkeys.exists_lt hlayout (i := 1) (j := 2) (by decide)
      (by rw [hops]; rfl) (by rw [hops]; rfl) hkey
    have hlt : q < 2 := hlength.2 ▸ lt_length_of_mem_operationsAt hq
    have hq0 := hfirst q hlt (.inr (List.mem_map_of_mem hq))
    omega

end Timetable
