import Timetable.Proofs.Schedule.Room
import Timetable.Proofs.Selection.CutOff
import Timetable.Instruction

/-!
# The nearest slot within a distance

Two searches look for the nearest slot on some resources, one forward from an index and one back
from it. Each has a window of indices to look at. They reckon with signed numbers, and where that
shows they look at another window: an index in the upper half of the words counts as negative, and a
search back from beyond the end uses up slots even where no distance has been given.

* `TouchedAt`, `Ahead`, `Behind`: the slots on the resources, and the two windows.
* `IsFirst`, `IsLast`: the answer that a search for the least or the greatest index gives.
* `exists_nextSlot`, `exists_prevSlot`: what the searches look at.
* `nextSlot_window`, `prevSlot_window`: what they answer, and where that is what the windows say.
* `nextSlot_before_start`, `prevSlot_used_up`: where it is not.
-/

namespace Timetable

variable {ω : Type}

/-! ### Windows and answers -/

def TouchedAt (slots : List (Slot ω)) (rs : List Resource) (i : Nat) : Prop :=
  ∃ slot, slots[i]? = some slot ∧ slot.touches rs = true

/-- The index is `start` or a later one, but less than the distance behind it. -/
def Ahead (start : Int) (distance : Option Int) (i : Nat) : Prop :=
  start ≤ i ∧ ∀ d ∈ distance, i < start + d

/-- The index is before `stop`, but not more than the distance before it. -/
def Behind (stop : Int) (distance : Option Int) (i : Nat) : Prop :=
  i < stop ∧ ∀ d ∈ distance, stop ≤ i + d

/-- The answer of a search for the least index in a set. -/
def IsFirst (found : Set Nat) : Option Nat → Prop
  | some i => IsLeast found i
  | none => ∀ i, i ∉ found

/-- The answer of a search for the greatest index in a set. -/
def IsLast (found : Set Nat) : Option Nat → Prop
  | some i => IsGreatest found i
  | none => ∀ i, i ∉ found

theorem ahead_none {start : Int} {i : Nat} : Ahead start none i ↔ start ≤ i := by simp [Ahead]

theorem ahead_some {start d : Int} {i : Nat} :
    Ahead start (some d) i ↔ start ≤ i ∧ i < start + d := by simp [Ahead]

theorem behind_none {stop : Int} {i : Nat} : Behind stop none i ↔ i < stop := by simp [Behind]

theorem behind_some {stop d : Int} {i : Nat} :
    Behind stop (some d) i ↔ i < stop ∧ stop ≤ i + d := by simp [Behind]

theorem TouchedAt.lt_length {slots : List (Slot ω)} {rs : List Resource} {i : Nat}
    (h : TouchedAt slots rs i) : i < slots.length := by
  obtain ⟨slot, hslot, -⟩ := h
  exact (List.getElem?_eq_some_iff.1 hslot).1

theorem isFirst_head? {l : List Nat} (h : l.Pairwise (· < ·)) :
    IsFirst {i | i ∈ l} l.head? := by
  cases l with
  | nil => exact fun i => List.not_mem_nil
  | cons i l =>
    refine ⟨List.mem_cons_self, fun j hj => ?_⟩
    rcases List.mem_cons.1 hj with rfl | hj
    · exact Nat.le_refl j
    · exact Nat.le_of_lt (List.rel_of_pairwise_cons h hj)

theorem isLast_getLast? {l : List Nat} (h : l.Pairwise (· < ·)) :
    IsLast {i | i ∈ l} l.getLast? := by
  induction l using List.reverseRecOn with
  | nil => exact fun i => List.not_mem_nil
  | append_singleton l i _ =>
    rw [List.getLast?_concat]
    refine ⟨List.mem_concat_self, fun j hj => ?_⟩
    rcases List.mem_append.1 hj with hj | hj
    · exact Nat.le_of_lt ((List.pairwise_append.1 h).2.2 j hj i (List.mem_singleton_self i))
    · exact Nat.le_of_eq (List.mem_singleton.1 hj)

/-! ### What is looked at -/

variable {slots : List (Slot ω)} {rs : List Resource}

theorem mem_touchingIn_iff {lo hi : Int} {i : Nat} :
    i ∈ touchingIn slots rs lo hi ↔ TouchedAt slots rs i ∧ lo ≤ i ∧ i < hi := by
  rw [touchingIn, List.mem_filter, List.mem_range, Bool.and_eq_true, Bool.and_eq_true,
    decide_eq_true_iff, decide_eq_true_iff, Option.any_eq_true]
  constructor
  · rintro ⟨-, hbounds, htouched⟩
    exact ⟨htouched, hbounds⟩
  · rintro ⟨htouched, hbounds⟩
    exact ⟨htouched.lt_length, hbounds, htouched⟩

theorem pairwise_touchingIn (slots : List (Slot ω)) (rs : List Resource) (lo hi : Int) :
    (touchingIn slots rs lo hi).Pairwise (· < ·) := List.pairwise_lt_range.filter _

/-- Half of the words stand for themselves. -/
theorem signed_of_lt {index : Nat} (h : index < 2 ^ 63) : signed index = index := by
  refine Int.bmod_eq_of_le_mul_two ?_ ?_ <;> simp <;> omega

/-- The other half stand for negative numbers. -/
theorem signed_of_le {index : Nat} (hle : 2 ^ 63 ≤ index) (hlt : index < 2 ^ 64) :
    signed index = index - 2 ^ 64 := by
  have hcongr : signed index = Int.bmod (index - (Nat.pow 2 64 : Nat)) (Nat.pow 2 64) :=
    (Int.sub_bmod_right _ _).symm
  rw [hcongr]
  refine Int.bmod_eq_of_le_mul_two ?_ ?_ <;> simp <;> omega

section Bounds

variable {lo hi : Int} {window : Nat → Prop}
  (h : ∀ i, TouchedAt slots rs i → (window i ↔ lo ≤ i ∧ i < hi))

include h

/-- The slots on the resources between two bounds are those of a window with these bounds. -/
theorem mem_touchingIn_eq :
    {i | i ∈ touchingIn slots rs lo hi} = {i | TouchedAt slots rs i ∧ window i} := by
  refine Set.ext fun i => mem_touchingIn_iff.trans ?_
  exact and_congr_right fun htouched => (h i htouched).symm

theorem isFirst_touchingIn :
    IsFirst {i | TouchedAt slots rs i ∧ window i} (touchingIn slots rs lo hi).head? := by
  rw [← mem_touchingIn_eq h]
  exact isFirst_head? (pairwise_touchingIn slots rs lo hi)

theorem isLast_touchingIn :
    IsLast {i | TouchedAt slots rs i ∧ window i} (touchingIn slots rs lo hi).getLast? := by
  rw [← mem_touchingIn_eq h]
  exact isLast_getLast? (pairwise_touchingIn slots rs lo hi)

end Bounds

/-! ### Forward -/

/-- The search forward looks at the slots ahead of the signed index. -/
theorem exists_nextSlot (slots : List (Slot ω)) (rs : List Resource) (start : Nat)
    (distance : Option Int) (h : ∀ d ∈ distance, 0 ≤ d) :
    ∃ answer, nextSlot slots rs start distance = .ok answer ∧
      IsFirst {i | TouchedAt slots rs i ∧ Ahead (signed start) distance i} answer := by
  cases distance with
  | none =>
    refine ⟨_, rfl, isFirst_touchingIn fun i htouched => ?_⟩
    have hlt := htouched.lt_length
    rw [ahead_none]
    omega
  | some d =>
    have hd : ¬d < 0 := Int.not_lt.2 (h d rfl)
    refine ⟨_, by rw [nextSlot, if_neg hd]; rfl, isFirst_touchingIn fun i htouched => ?_⟩
    have hlt := htouched.lt_length
    rw [ahead_some]
    omega

theorem touchedAt_iff {i : Nat} : TouchedAt slots rs i ↔ ∃ r ∈ rs, TouchedAt slots [r] i := by
  constructor
  · rintro ⟨slot, hslot, htouch⟩
    obtain ⟨r, hr, hon⟩ := List.any_eq_true.1 htouch
    exact ⟨r, hr, slot, hslot, List.any_eq_true.2 ⟨r, List.mem_singleton_self r, hon⟩⟩
  · rintro ⟨r, hr, slot, hslot, htouch⟩
    obtain ⟨_, hmem, hon⟩ := List.any_eq_true.1 htouch
    rw [List.mem_singleton.1 hmem] at hon
    exact ⟨slot, hslot, List.any_eq_true.2 ⟨r, hr, hon⟩⟩

/-- The next use is the first slot on the resources from the index on. -/
theorem isFirst_nextUse? (slots : List (Slot ω)) (rs : List Resource) (start : Nat) :
    IsFirst {i | TouchedAt slots rs i ∧ start ≤ i} (nextUse? slots rs start) := by
  cases hnext : nextUse? slots rs start with
  | none =>
    rintro i ⟨⟨slot, hslot, htouch⟩, hle⟩
    rw [nextUse?_eq_none_iff.1 hnext i slot hle hslot] at htouch
    cases htouch
  | some i =>
    obtain ⟨hle, htouched, hbefore⟩ := nextUse?_eq_some_iff.1 hnext
    refine ⟨⟨htouched, hle⟩, ?_⟩
    rintro j ⟨⟨slot, hslot, htouch⟩, hj⟩
    refine Nat.le_of_not_lt fun hji => ?_
    rw [hbefore j slot hj hji hslot] at htouch
    cases htouch

/-- A next use, or the length where there is none, is not behind any slot on the resources. -/
theorem nextUse?_getD_le {start i : Nat} (htouched : TouchedAt slots rs i) (hle : start ≤ i) :
    (nextUse? slots rs start).getD slots.length ≤ i := by
  have hfirst := isFirst_nextUse? slots rs start
  cases hnext : nextUse? slots rs start with
  | none =>
    rw [hnext] at hfirst
    exact absurd ⟨htouched, hle⟩ (hfirst i)
  | some j =>
    rw [hnext] at hfirst
    exact hfirst.2 ⟨htouched, hle⟩

/-- Below the length it is such a slot itself. -/
theorem touchedAt_of_nextUse? {start i : Nat}
    (hnext : (nextUse? slots rs start).getD slots.length = i) (hlt : i < slots.length) :
    TouchedAt slots rs i ∧ start ≤ i := by
  have hfirst := isFirst_nextUse? slots rs start
  cases hsome : nextUse? slots rs start with
  | none =>
    rw [hsome, Option.getD_none] at hnext
    exact absurd hnext (Nat.ne_of_gt hlt)
  | some j =>
    rw [hsome] at hfirst hnext
    rw [← hnext]
    exact hfirst.1

/-- The first slot on the resources is the least of their next uses, if that is a slot at all. -/
theorem isLeast_touchedAt_iff {start i : Nat} :
    IsLeast {i | TouchedAt slots rs i ∧ start ≤ i} i ↔
      (nextUses slots rs start).values.min? = some i ∧ i < slots.length := by
  have hget : ∀ {v}, (∃ r, (nextUses slots rs start).get? r = some v) ↔
      ∃ r ∈ rs, (nextUse? slots [r] start).getD slots.length = v := by
    simp only [Schedule.get?_nextUses, Option.ite_none_right_eq_some, Option.some.injEq,
      implies_true]
  rw [min?_values_eq_some_iff]
  simp only [hget]
  constructor
  · rintro ⟨⟨htouched, hle⟩, hleast⟩
    have hlt := htouched.lt_length
    have hlower : ∀ r ∈ rs, i ≤ (nextUse? slots [r] start).getD slots.length := by
      intro r hr
      refine Nat.le_of_not_lt fun hbelow => ?_
      obtain ⟨hnext, hstart⟩ := touchedAt_of_nextUse? rfl (Nat.lt_trans hbelow hlt)
      exact Nat.not_le.2 hbelow (hleast ⟨touchedAt_iff.2 ⟨r, hr, hnext⟩, hstart⟩)
    obtain ⟨r, hr, hon⟩ := touchedAt_iff.1 htouched
    refine ⟨⟨⟨r, hr, Nat.le_antisymm (nextUse?_getD_le hon hle) (hlower r hr)⟩, ?_⟩, hlt⟩
    rintro _ ⟨r', hr', rfl⟩
    exact hlower r' hr'
  · rintro ⟨⟨⟨r, hr, hnext⟩, hleast⟩, hlt⟩
    obtain ⟨hon, hle⟩ := touchedAt_of_nextUse? hnext hlt
    refine ⟨⟨touchedAt_iff.2 ⟨r, hr, hon⟩, hle⟩, ?_⟩
    rintro j ⟨htouched, hj⟩
    obtain ⟨r', hr', hon'⟩ := touchedAt_iff.1 htouched
    exact Nat.le_trans (hleast ⟨r', hr', rfl⟩) (nextUse?_getD_le hon' hj)

/-- **The next slot within a distance.** A negative distance is refused. Any other search answers
the first slot on the resources in its window, if it begins in the lower half of the words; without
a distance, that is the least of their next uses. If it begins in the upper half, the window is that
of the negative number which the word stands for. The last is not meant for a start from `2 ^ 63` to
as many behind it as there are slots, whose difference to the length is no signed word: a checked
build stops at it, and if a distance is given any other one looks at all slots. -/
theorem nextSlot_window (slots : List (Slot ω)) (rs : List Resource) (start : Nat)
    (distance : Option Int) :
    (∀ d ∈ distance, d < 0 → nextSlot slots rs start distance = .error (.negativeDistance d)) ∧
    ((∀ d ∈ distance, 0 ≤ d) → ∃ answer, nextSlot slots rs start distance = .ok answer ∧
      (start < 2 ^ 63 → IsFirst {i | TouchedAt slots rs i ∧ Ahead start distance i} answer) ∧
      (2 ^ 63 ≤ start → start < 2 ^ 64 →
        IsFirst {i | TouchedAt slots rs i ∧ Ahead (start - 2 ^ 64) distance i} answer)) ∧
    (start < 2 ^ 63 → ∀ i, nextSlot slots rs start none = .ok (some i) ↔
      (nextUses slots rs start).values.min? = some i ∧ i < slots.length) := by
  refine ⟨?_, fun hdistance => ?_, fun hlow i => ?_⟩
  · rintro d rfl hd
    rw [nextSlot, if_pos hd]
    rfl
  · obtain ⟨answer, hans, hfirst⟩ := exists_nextSlot slots rs start distance hdistance
    refine ⟨answer, hans, fun hlow => ?_, fun hle hlt => ?_⟩
    · rwa [signed_of_lt hlow] at hfirst
    · rwa [signed_of_le hle hlt] at hfirst
  · obtain ⟨answer, hans, hfirst⟩ := exists_nextSlot slots rs start none (by simp)
    have hwindow : ∀ j, Ahead (signed start) none j ↔ start ≤ j := by
      intro j
      rw [ahead_none, signed_of_lt hlow, Int.ofNat_le]
    simp only [hwindow] at hfirst
    rw [hans, ← isLeast_touchedAt_iff]
    constructor
    · intro hsome
      cases hsome
      exact hfirst
    · intro hleast
      cases answer with
      | none => exact absurd hleast.1 (hfirst i)
      | some j => rw [hfirst.unique hleast]

/-- The window of three slots from the second one on holds one slot on the resource, and the slot
before the window is passed over. -/
theorem nextSlot_window_past_gap :
    let a : Instruction := { name := "a", resources := [.line 0] }
    let b : Instruction := { name := "b", resources := [.line 1] }
    let slots := [[a], [b], [], [b, a]].map Slot.ofApart
    let distance : Option Int := some 3
    ((∀ d ∈ distance, 0 ≤ d) ∧ 1 < 2 ^ 63) ∧
      nextSlot slots [.line 0] 1 distance = .ok (some 3) ∧
      IsFirst {i | TouchedAt slots [.line 0] i ∧ Ahead 1 distance i} (some 3) := by
  intro a b slots distance
  have hdistance : ∀ d ∈ distance, 0 ≤ d := by decide
  have hlow : 1 < 2 ^ 63 := by decide
  obtain ⟨answer, hans, hfirst, -⟩ := (nextSlot_window slots [.line 0] 1 distance).2.1 hdistance
  have hthree : nextSlot slots [.line 0] 1 distance = .ok (some 3) := by decide +kernel
  rw [hthree] at hans
  cases hans
  exact ⟨⟨hdistance, hlow⟩, hthree, hfirst hlow⟩

/-- The last of all indices counts as one before the first slot, and the search finds that slot
although it comes before the index. -/
theorem nextSlot_before_start :
    let a : Instruction := { name := "a", resources := [.line 0] }
    let slots := [[a]].map Slot.ofApart
    let start : Nat := 2 ^ 64 - 1
    nextSlot slots [.line 0] start none = .ok (some 0) ∧
      ¬∃ answer, nextSlot slots [.line 0] start none = .ok answer ∧
        IsFirst {i | TouchedAt slots [.line 0] i ∧ Ahead start none i} answer := by
  intro a slots start
  have hfound : nextSlot slots [.line 0] start none = .ok (some 0) := by decide +kernel
  refine ⟨hfound, ?_⟩
  rintro ⟨answer, hans, hfirst⟩
  rw [hfound] at hans
  cases hans
  exact absurd hfirst.1.2.1 (by decide)

/-! ### Back -/

/-- What is beyond the end is taken from the reach of a search back, which leaves the lower bound
where it was. -/
theorem isLast_beyond {stop reach : Int} {window : Nat → Prop}
    (h : ∀ i, TouchedAt slots rs i → (window i ↔ stop - reach ≤ i ∧ i < stop)) {beyond : Int}
    (hbeyond : beyond = max 0 (stop - slots.length)) :
    IsLast {i | TouchedAt slots rs i ∧ window i} (if reach - beyond ≤ 0 then none else
      (touchingIn slots rs (stop - beyond - (reach - beyond)) (stop - beyond)).getLast?) := by
  split
  · rintro i ⟨htouched, hwindow⟩
    have hlt := htouched.lt_length
    have hbounds := (h i htouched).1 hwindow
    omega
  · refine isLast_touchingIn fun i htouched => ?_
    have hlt := htouched.lt_length
    rw [h i htouched]
    omega

/-- The search back looks at the slots behind the signed index, and keeps to a distance even where
none is given. -/
theorem exists_prevSlot (slots : List (Slot ω)) (rs : List Resource) (stop : Option Nat)
    (distance : Option Int) (h : ∀ d ∈ distance, 0 ≤ d) :
    ∃ answer, prevSlot slots rs stop distance = .ok answer ∧
      IsLast {i | TouchedAt slots rs i ∧ Behind ((stop.map signed).getD slots.length)
        (some (distance.getD slots.length)) i} answer := by
  cases distance with
  | none =>
    refine ⟨_, rfl, isLast_beyond (fun i _ => ?_) rfl⟩
    rw [behind_some, Option.getD_none]
    omega
  | some d =>
    have hd : ¬d < 0 := Int.not_lt.2 (h d rfl)
    refine ⟨_, by rw [prevSlot, if_neg hd]; rfl, isLast_beyond (fun i _ => ?_) rfl⟩
    rw [behind_some, Option.getD_some]
    omega

theorem signed_getD {stop : Option Nat} (h : ∀ e ∈ stop, e < 2 ^ 63) (n : Nat) :
    (stop.map signed).getD n = (stop.getD n : Nat) := by
  cases stop with
  | none => rfl
  | some e =>
    rw [Option.map_some, Option.getD_some, Option.getD_some]
    exact signed_of_lt (h e (Option.mem_some_self e))

/-- Behind an index that counts as negative there is no slot. -/
theorem eq_none_of_isLast_behind {stop : Int} (hstop : stop ≤ 0) {distance : Option Int}
    {answer : Option Nat}
    (h : IsLast {i | TouchedAt slots rs i ∧ Behind stop distance i} answer) : answer = none := by
  cases answer with
  | none => rfl
  | some i =>
    obtain ⟨⟨-, hbefore, -⟩, -⟩ := h
    omega

/-- A search back that keeps to a distance of its own finds the last slot on the resources, if it
finds any. -/
theorem isGreatest_behind {stop : Int} {distance : Option Int} {n : Int} {i : Nat}
    (h : IsGreatest {i | TouchedAt slots rs i ∧ Behind stop (some (distance.getD n)) i} i) :
    IsGreatest {i | TouchedAt slots rs i ∧ Behind stop distance i} i := by
  cases distance with
  | some d => exact h
  | none =>
    obtain ⟨⟨htouched, hwindow⟩, hgreatest⟩ := h
    rw [behind_some] at hwindow
    refine ⟨⟨htouched, behind_none.2 hwindow.1⟩, ?_⟩
    rintro j ⟨hj, hbefore⟩
    refine Nat.le_of_not_lt fun hij => ?_
    have hreach : Behind stop (some (Option.getD none n)) j := by
      rw [behind_none] at hbefore
      rw [behind_some]
      omega
    exact Nat.not_le.2 hij (hgreatest ⟨hj, hreach⟩)

/-- Up to the end, the length is no limit. -/
theorem behind_getD_iff {stop n : Nat} {distance : Option Int} {i : Nat}
    (h : distance = none → stop ≤ n) :
    Behind stop (some (distance.getD n)) i ↔ Behind stop distance i := by
  cases distance with
  | some d => exact Iff.rfl
  | none =>
    have hle := h rfl
    rw [behind_some, behind_none, Option.getD_none]
    omega

/-- **The last slot within a distance.** A negative distance is refused. What any other search finds
is the last slot on the resources in its window. It misses one only where the index from which it
goes back is in the upper half of the words, or lies beyond the end and no distance is given. In the
one case nothing is found at all; in the other the search takes the length for its distance, and the
slots beyond the end use it up. Without a distance, from `2 ^ 63` to less than as many behind it as
there are slots, the search comes to indices that are no signed words, and there a checked build
stops instead. -/
theorem prevSlot_window (slots : List (Slot ω)) (rs : List Resource) {stop : Option Nat}
    (hword : ∀ e ∈ stop, e < 2 ^ 64) (distance : Option Int) :
    (∀ d ∈ distance, d < 0 → prevSlot slots rs stop distance = .error (.negativeDistance d)) ∧
    ((∀ d ∈ distance, 0 ≤ d) → ∃ answer, prevSlot slots rs stop distance = .ok answer ∧
      (∀ i, answer = some i →
        IsGreatest {i | TouchedAt slots rs i ∧ Behind (stop.getD slots.length) distance i} i) ∧
      ((∀ e ∈ stop, e < 2 ^ 63 ∧ (distance = none → e ≤ slots.length)) →
        IsLast {i | TouchedAt slots rs i ∧ Behind (stop.getD slots.length) distance i} answer) ∧
      ((∀ e ∈ stop, e < 2 ^ 63) → IsLast {i | TouchedAt slots rs i ∧
        Behind (stop.getD slots.length) (some (distance.getD slots.length)) i} answer) ∧
      ((∃ e ∈ stop, 2 ^ 63 ≤ e) → answer = none)) := by
  refine ⟨?_, fun hdistance => ?_⟩
  · rintro d rfl hd
    rw [prevSlot, if_pos hd]
    rfl
  · obtain ⟨answer, hans, hlast⟩ := exists_prevSlot slots rs stop distance hdistance
    refine ⟨answer, hans, ?_⟩
    by_cases hlow : ∀ e ∈ stop, e < 2 ^ 63
    · rw [signed_getD hlow] at hlast
      refine ⟨?_, fun hwithin => ?_, fun _ => hlast, ?_⟩
      · rintro i rfl
        exact isGreatest_behind hlast
      · have hend : distance = none → stop.getD slots.length ≤ slots.length := by
          intro hnone
          cases stop with
          | none => exact Nat.le_refl _
          | some e => exact (hwithin e (Option.mem_some_self e)).2 hnone
        simpa only [behind_getD_iff hend] using hlast
      · rintro ⟨e, he, hle⟩
        exact absurd (hlow e he) (Nat.not_lt.2 hle)
    · push Not at hlow
      obtain ⟨e, rfl, hle⟩ := hlow
      have hmem : e ∈ some e := Option.mem_some_self e
      have hlt := hword e hmem
      have hnone : answer = none := by
        rw [Option.map_some, Option.getD_some, signed_of_le hle hlt] at hlast
        exact eq_none_of_isLast_behind (by omega) hlast
      subst hnone
      refine ⟨fun i hi => ?_, fun h => ?_, fun h => ?_, fun _ => rfl⟩
      · exact absurd hi.symm (Option.some_ne_none i)
      · exact absurd (h e hmem).1 (Nat.not_lt.2 hle)
      · exact absurd (h e hmem) (Nat.not_lt.2 hle)

/-- Three slots back from beyond the end there is one on the resource, behind another one. -/
theorem prevSlot_window_past_end :
    let a : Instruction := { name := "a", resources := [.line 0] }
    let b : Instruction := { name := "b", resources := [.line 1] }
    let slots := [[a], [b, a], [b]].map Slot.ofApart
    let stop : Option Nat := some 4
    let distance : Option Int := some 3
    ((∀ e ∈ stop, e < 2 ^ 64) ∧ (∀ d ∈ distance, 0 ≤ d) ∧
        ∀ e ∈ stop, e < 2 ^ 63 ∧ (distance = none → e ≤ slots.length)) ∧
      prevSlot slots [.line 0] stop distance = .ok (some 1) ∧
      IsLast {i | TouchedAt slots [.line 0] i ∧ Behind (stop.getD slots.length) distance i}
        (some 1) := by
  intro a b slots stop distance
  have hword : ∀ e ∈ stop, e < 2 ^ 64 := by decide
  have hdistance : ∀ d ∈ distance, 0 ≤ d := by decide
  have hwithin : ∀ e ∈ stop, e < 2 ^ 63 ∧ (distance = none → e ≤ slots.length) := by decide
  obtain ⟨answer, hans, -, hlast, -⟩ :=
    (prevSlot_window slots [.line 0] hword distance).2 hdistance
  have hone : prevSlot slots [.line 0] stop distance = .ok (some 1) := by decide +kernel
  rw [hone] at hans
  cases hans
  exact ⟨⟨hword, hdistance, hwithin⟩, hone, hlast hwithin⟩

/-- Back from one slot beyond the end, without a distance: the slot at the beginning is not looked
at any more, and nothing is found. -/
theorem prevSlot_used_up :
    let a : Instruction := { name := "a", resources := [.line 0] }
    let slots := [[a], []].map Slot.ofApart
    let stop : Option Nat := some 3
    prevSlot slots [.line 0] stop none = .ok none ∧
      ¬∃ answer, prevSlot slots [.line 0] stop none = .ok answer ∧
        IsLast {i | TouchedAt slots [.line 0] i ∧ Behind (stop.getD slots.length) none i} answer := by
  intro a slots stop
  have hnone : prevSlot slots [.line 0] stop none = .ok none := by decide +kernel
  refine ⟨hnone, ?_⟩
  rintro ⟨answer, hans, hlast⟩
  rw [hnone] at hans
  cases hans
  refine hlast 0 ⟨⟨Slot.ofApart [a], rfl, by decide⟩, ?_⟩
  rw [behind_none]
  decide

end Timetable
