import Timetable.Proofs.Selection.Between
import Timetable.Proofs.Slot.Conflict

/-!
# What a scan cuts off

A scan for blockers goes from slot to slot, beginning with the least slot at which a resource of the
frontier starts. Which operations it cuts off does not depend on the order inside slots, nor on
where it stops: it is said here by recursion on the slot. The scan does not ask whether a resource
has started before it cuts it off. So an operation that the frontier reaches is found unless the
cut has come to it from a slot in which one of the resources had not yet started.

* `CutOff`, `CutBefore`: operations and resources that are cut off.
* `Scan.Cuts.slot`, `Scan.Cuts.run`: what the scan of a slot, and of the remaining slots, finds.
* `operationsUntilBlocked_eq_filter`, `operationsUntilBlocked_exact`: what is found before blockers
  cut off every resource.
* `CutInAdvance`: the cut begins on a resource that has not yet started.
* `operationsUntilBlocked_of_reach`: which operations within reach are found.
-/

namespace Timetable

theorem drop_zipIdx {α : Type} (l : List α) (k : Nat) :
    l.zipIdx.drop k = (l.drop k).zipIdx k := by
  refine List.ext_getElem? fun i => ?_
  rw [List.getElem?_drop, List.getElem?_zipIdx, List.getElem?_zipIdx, List.getElem?_drop,
    Nat.zero_add]

theorem take_zipIdx {α : Type} (l : List α) (k : Nat) :
    l.zipIdx.take k = (l.take k).zipIdx := by
  refine List.ext_getElem? fun i => ?_
  rw [List.getElem?_take, List.getElem?_zipIdx, List.getElem?_zipIdx, List.getElem?_take]
  split <;> rfl

variable {ω : Type} [Operation ω]

section Definitions

variable (slots : List (Slot ω)) (least : Nat) (blocks : ω → Bool)

/-- A scan that begins with the slot `least` cuts off the operation: it is a blocker, or it shares a
resource with an operation of an earlier slot that is cut off. -/
inductive CutOff : Nat → ω → Prop
  | blocker {i : Nat} {op : ω} : blocks op = true → CutOff i op
  | behind {i j : Nat} {op earlier : ω} : least ≤ j → j < i → earlier ∈ operationsAt slots j →
      SharesResource op earlier → CutOff j earlier → CutOff i op

/-- An operation on the resource has been cut off in a slot before `i`. -/
def CutBefore (r : Resource) (i : Nat) : Prop :=
  ∃ j, least ≤ j ∧ j < i ∧ ∃ op ∈ operationsAt slots j, r ∈ resources op ∧
    CutOff slots least blocks j op

variable (start : Frontier)

/-- The operation of the slot `i` is found: it is not cut off, and the frontier has begun on one of
its resources. -/
def FoundAt (i : Nat) (op : ω) : Prop :=
  ¬CutOff slots least blocks i op ∧ ∃ r ∈ resources op, ∃ first ≤ i, start.get? r = some first

/-- The operation is cut off, and the cut comes from a resource of the frontier that was cut off
before its start. -/
inductive CutInAdvance : Nat → ω → Prop
  | ahead {i first : Nat} {op : ω} {r : Resource} : r ∈ resources op →
      start.get? r = some first → first ≤ i → CutBefore slots least blocks r first →
      CutInAdvance i op
  | behind {i j : Nat} {op earlier : ω} : least ≤ j → j < i → earlier ∈ operationsAt slots j →
      SharesResource op earlier → CutInAdvance j earlier → CutInAdvance i op

end Definitions

def leastStart (start : Frontier) : Nat := start.values.min?.getD 0

variable {slots : List (Slot ω)} {least : Nat} {blocks : ω → Bool} {start : Frontier}

/-! ### Operations and resources that are cut off -/

theorem cutOff_iff {i : Nat} {op : ω} : CutOff slots least blocks i op ↔
    blocks op = true ∨ ∃ r ∈ resources op, CutBefore slots least blocks r i := by
  constructor
  · intro h
    cases h with
    | blocker hb => exact .inl hb
    | behind hle hlt hmem hshare hcut =>
      obtain ⟨r, hr, hre⟩ := hshare
      exact .inr ⟨r, hr, _, hle, hlt, _, hmem, hre, hcut⟩
  · rintro (hb | ⟨r, hr, j, hle, hlt, earlier, hmem, hre, hcut⟩)
    · exact .blocker hb
    · exact .behind hle hlt hmem ⟨r, hr, hre⟩ hcut

theorem CutBefore.mono {r : Resource} {i k : Nat} (h : CutBefore slots least blocks r i)
    (hik : i ≤ k) : CutBefore slots least blocks r k := by
  obtain ⟨j, hle, hlt, hop⟩ := h
  exact ⟨j, hle, Nat.lt_of_lt_of_le hlt hik, hop⟩

theorem not_cutBefore_least (r : Resource) : ¬CutBefore slots least blocks r least := by
  rintro ⟨j, hle, hlt, -⟩
  exact Nat.not_lt.2 hle hlt

theorem cutBefore_succ_iff {r : Resource} {i : Nat} (hle : least ≤ i) :
    CutBefore slots least blocks r (i + 1) ↔ CutBefore slots least blocks r i ∨
      ∃ op ∈ operationsAt slots i, r ∈ resources op ∧ CutOff slots least blocks i op := by
  constructor
  · rintro ⟨j, hj, hlt, hop⟩
    rcases Nat.lt_succ_iff_lt_or_eq.1 hlt with hlt | rfl
    · exact .inl ⟨j, hj, hlt, hop⟩
    · exact .inr hop
  · rintro (h | hop)
    · exact h.mono (Nat.le_succ i)
    · exact ⟨i, hle, Nat.lt_succ_self i, hop⟩

/-! ### The scan -/

open Classical in
/-- The operations of one slot that are found. -/
noncomputable def foundIn (slots : List (Slot ω)) (least : Nat) (blocks : ω → Bool)
    (start : Frontier) (i : Nat) (ops : List ω) : List (Nat × ω) :=
  (ops.filter fun op => decide (FoundAt slots least blocks start i op)).map (Prod.mk i)

theorem foundIn_eq_nil {i : Nat} {ops : List ω}
    (h : ∀ op ∈ ops, ¬FoundAt slots least blocks start i op) :
    foundIn slots least blocks start i ops = [] := by
  rw [foundIn, List.filter_eq_nil_iff.2 fun op hop => by simpa using h op hop, List.map_nil]

/-- Once every resource of the frontier is cut off, nothing is found any more. -/
theorem not_foundAt_of_cutBefore {k i : Nat} {op : ω} (hki : k ≤ i)
    (hall : ∀ r ∈ start.keys, CutBefore slots least blocks r k) :
    ¬FoundAt slots least blocks start i op := by
  rintro ⟨hpass, r, hr, first, -, hget⟩
  have hcut := hall r (SortedMap.mem_keys_iff.2 ⟨first, hget⟩)
  exact hpass (cutOff_iff.2 (.inr ⟨r, hr, hcut.mono hki⟩))

namespace Scan

variable (start)

/-- The scan has cut off just the resources that are cut off before the slot `i`. -/
def Cuts (slots : List (Slot ω)) (least : Nat) (blocks : ω → Bool) (i : Nat) (s : Scan ω) : Prop :=
  ∀ r, r ∈ s.blocked ↔ CutBefore slots least blocks r i

/-- Looking at an operation none of whose resources has been cut off inside the slot. -/
theorem look_spec {s : Scan ω} {i : Nat} {op : ω}
    (h : ∀ r ∈ resources op, r ∈ s.blocked ↔ CutBefore slots least blocks r i) :
    (s.look start blocks i op).found = s.found ++ foundIn slots least blocks start i [op] ∧
      ∀ r, r ∈ (s.look start blocks i op).blocked ↔
        r ∈ s.blocked ∨ r ∈ resources op ∧ CutOff slots least blocks i op := by
  have hcut : (blocks op || (resources op).any s.blocked.contains) = true ↔
      CutOff slots least blocks i op := by
    rw [Bool.or_eq_true, List.any_eq_true, cutOff_iff]
    refine or_congr_right (exists_congr fun r => and_congr_right fun hr => ?_)
    rw [SortedSet.contains_iff, h r hr]
  have hbegun : ((resources op).any fun r => (start.get? r).any (· ≤ i)) = true ↔
      ∃ r ∈ resources op, ∃ first ≤ i, start.get? r = some first := by
    simp only [List.any_eq_true, Option.any_eq_true, decide_eq_true_eq]
    refine exists_congr fun r => and_congr_right fun _ => exists_congr fun first => ?_
    exact and_comm
  rw [look]
  split
  · rename_i hblocked
    have hop := hcut.1 hblocked
    refine ⟨?_, fun r => ?_⟩
    · rw [foundIn_eq_nil (List.forall_mem_singleton.2 fun hfound => hfound.1 hop), List.append_nil]
    · rw [SortedSet.mem_insertAll, and_iff_left hop, or_comm]
  · rename_i hblocked
    have hop : ¬CutOff slots least blocks i op := fun hop => hblocked (hcut.2 hop)
    have hsame : ∀ r, r ∈ s.blocked ↔
        r ∈ s.blocked ∨ r ∈ resources op ∧ CutOff slots least blocks i op :=
      fun r => (or_iff_left fun hr => hop hr.2).symm
    split
    · rename_i hreached
      refine ⟨?_, hsame⟩
      rw [foundIn, List.filter_cons_of_pos (by simpa using ⟨hop, hbegun.1 hreached⟩)]
      rfl
    · rename_i hreached
      refine ⟨?_, hsame⟩
      rw [foundIn_eq_nil (List.forall_mem_singleton.2 fun hfound => hreached (hbegun.2 hfound.2)),
        List.append_nil]

/-- Looking at operations that share no resource. What is cut off of one of them matters to none of
the others. -/
theorem foldl_look_spec {i : Nat} {ops : List ω} (hops : ops.Pairwise (¬SharesResource · ·)) :
    ∀ {s : Scan ω},
      (∀ op ∈ ops, ∀ r ∈ resources op, r ∈ s.blocked ↔ CutBefore slots least blocks r i) →
      (ops.foldl (look start blocks i) s).found =
          s.found ++ foundIn slots least blocks start i ops ∧
        ∀ r, r ∈ (ops.foldl (look start blocks i) s).blocked ↔ r ∈ s.blocked ∨
          ∃ op ∈ ops, r ∈ resources op ∧ CutOff slots least blocks i op := by
  induction ops with
  | nil => simp [foundIn]
  | cons op ops ih =>
    intro s h
    obtain ⟨hop, hrest⟩ := List.pairwise_cons.1 hops
    obtain ⟨hhere, hlater⟩ := List.forall_mem_cons.1 h
    obtain ⟨hfound, hblocked⟩ := look_spec start hhere
    have hnext : ∀ a ∈ ops, ∀ r ∈ resources a,
        r ∈ (s.look start blocks i op).blocked ↔ CutBefore slots least blocks r i := by
      intro a ha r hr
      rw [hblocked, hlater a ha r hr]
      exact or_iff_left fun hx => hop a ha ⟨r, hx.1, hr⟩
    obtain ⟨hfound', hblocked'⟩ := ih hrest hnext
    rw [List.foldl_cons]
    constructor
    · rw [hfound', hfound, List.append_assoc, foundIn, foundIn, foundIn, ← List.map_append,
        ← List.filter_append, List.singleton_append]
    · intro r
      rw [hblocked', hblocked, or_assoc, List.exists_mem_cons_iff]

/-- The scan of one slot. -/
theorem Cuts.slot {s : Scan ω} {i : Nat} {slot : Slot ω} (h : s.Cuts slots least blocks i)
    (hle : least ≤ i) (hs : slot.Sound) (hslot : slots[i]? = some slot) :
    (slot.operations.foldl (look start blocks i) s).found =
        s.found ++ foundIn slots least blocks start i slot.operations ∧
      (slot.operations.foldl (look start blocks i) s).Cuts slots least blocks (i + 1) := by
  obtain ⟨hfound, hblocked⟩ :=
    foldl_look_spec start hs.pairwise_not_shares fun op _ r _ => h r
  refine ⟨hfound, fun r => ?_⟩
  rw [hblocked, h r, cutBefore_succ_iff hle, operationsAt_of_getElem? hslot]

/-- The scan of the remaining slots. It may stop early, but then the slots that it leaves aside
would have added nothing. -/
theorem Cuts.run (hs : ∀ slot ∈ slots, slot.Sound) {rest : List (Slot ω)} :
    ∀ {s : Scan ω} {k : Nat}, s.Cuts slots least blocks k → least ≤ k → rest = slots.drop k →
      (Scan.run start blocks s (rest.zipIdx k)).found = s.found ++
        (rest.zipIdx k).flatMap fun e => foundIn slots least blocks start e.2 e.1.operations := by
  induction rest with
  | nil =>
    intro s k _ _ _
    simp [Scan.run]
  | cons slot rest ih =>
    intro s k h hle hrest
    have hslot : slots[k]? = some slot := by
      rw [← List.head?_drop, ← hrest, List.head?_cons]
    have hnext : rest = slots.drop (k + 1) := by
      rw [← List.tail_drop, ← hrest, List.tail_cons]
    have hsound := hs slot (List.mem_of_getElem? hslot)
    obtain ⟨hfound, hcuts⟩ := h.slot start hle hsound hslot
    rw [List.zipIdx_cons, Scan.run, List.flatMap_cons, ← List.append_assoc, ← hfound]
    split
    · rename_i hall
      have hcut : ∀ r ∈ start.keys, CutBefore slots least blocks r (k + 1) := fun r hr =>
        (hcuts r).1 (SortedSet.contains_iff.1 (List.all_eq_true.1 hall r hr))
      have hnone : ∀ e ∈ rest.zipIdx (k + 1),
          foundIn slots least blocks start e.2 e.1.operations = [] := fun e he =>
        foundIn_eq_nil fun op _ => not_foundAt_of_cutBefore (List.le_snd_of_mem_zipIdx he) hcut
      rw [List.flatMap_eq_nil_iff.2 hnone, List.append_nil]
    · exact ih hcuts (Nat.le_succ_of_le hle) hnext

end Scan

/-! ### What the scan finds -/

open Classical in
/-- What is found before blockers cut off every resource: the operations that are found, from the
least start on, in the order of the slots. -/
theorem operationsUntilBlocked_eq_filter (hs : ∀ slot ∈ slots, slot.Sound)
    (hleast : start.values.min? = some least) :
    operationsUntilBlocked slots start blocks = (Schedule.indexedOperations slots).filter
      fun e => decide (least ≤ e.1 ∧ FoundAt slots least blocks start e.1 e.2) := by
  have hempty : Scan.Cuts slots least blocks least ({} : Scan ω) :=
    fun r => iff_of_false List.not_mem_nil (not_cutBefore_least r)
  have hearly : ∀ e ∈ slots.zipIdx.take least, (e.1.operations.map fun op => (e.2, op)).filter
      (fun e => decide (least ≤ e.1 ∧ FoundAt slots least blocks start e.1 e.2)) = [] := by
    intro e he
    rw [take_zipIdx] at he
    have hlt := List.snd_lt_of_mem_zipIdx he
    rw [List.length_take] at hlt
    rw [List.filter_map, List.filter_eq_nil_iff.2 fun op _ => ?_, List.map_nil]
    simp only [Function.comp_apply, decide_eq_true_eq, not_and]
    omega
  have hlate : ∀ e ∈ slots.zipIdx.drop least, (e.1.operations.map fun op => (e.2, op)).filter
      (fun e => decide (least ≤ e.1 ∧ FoundAt slots least blocks start e.1 e.2)) =
        foundIn slots least blocks start e.2 e.1.operations := by
    intro e he
    rw [drop_zipIdx] at he
    rw [List.filter_map, foundIn]
    refine congrArg _ (List.filter_congr fun op _ => decide_eq_decide.2 ?_)
    exact and_iff_right (List.le_snd_of_mem_zipIdx he)
  have hrun := hempty.run start hs (Nat.le_refl least) rfl
  rw [← drop_zipIdx] at hrun
  rw [operationsUntilBlocked, hleast]
  refine hrun.trans ?_
  rw [Schedule.indexedOperations, List.filter_flatMap, ← List.take_append_drop least slots.zipIdx,
    List.flatMap_append, List.flatMap_eq_nil_iff.2 hearly, List.flatMap_congr hlate,
    List.take_append_drop]

theorem exists_least {r : Resource} {first : Nat} (hget : start.get? r = some first) :
    ∃ least ≤ first, start.values.min? = some least := by
  have hmem : first ∈ start.values := SortedMap.mem_values_iff.2 ⟨r, hget⟩
  obtain ⟨least, hleast⟩ := Option.isSome_iff_exists.1 (List.isSome_min?_of_mem hmem)
  exact ⟨least, (List.min?_eq_some_iff.1 hleast).2 first hmem, hleast⟩

/-- An operation is found when it is not cut off and the frontier has begun on one of its
resources. -/
theorem mem_operationsUntilBlocked_iff (hs : ∀ slot ∈ slots, slot.Sound) {e : Nat × ω} :
    e ∈ operationsUntilBlocked slots start blocks ↔ e.2 ∈ operationsAt slots e.1 ∧
      FoundAt slots (leastStart start) blocks start e.1 e.2 := by
  classical
  have hstarted : ∀ least, FoundAt slots least blocks start e.1 e.2 →
      ∃ first ≤ e.1, start.values.min? = some first := by
    rintro _ ⟨-, r, -, first, hfirst, hget⟩
    obtain ⟨least, hle, hleast⟩ := exists_least hget
    exact ⟨least, Nat.le_trans hle hfirst, hleast⟩
  cases hleast : start.values.min? with
  | none =>
    rw [operationsUntilBlocked, hleast]
    refine iff_of_false List.not_mem_nil fun hfound => ?_
    obtain ⟨first, -, hsome⟩ := hstarted _ hfound.2
    rw [hleast] at hsome
    cases hsome
  | some least =>
    rw [operationsUntilBlocked_eq_filter hs hleast, List.mem_filter, decide_eq_true_iff,
      mem_indexedOperations_iff, leastStart, hleast, Option.getD_some]
    refine and_congr_right fun _ => and_iff_right_of_imp fun hfound => ?_
    obtain ⟨first, hle, hsome⟩ := hstarted _ hfound
    rw [hleast] at hsome
    cases hsome
    exact hle

/-- The least of the values is the least start. -/
theorem min?_values_eq_some_iff : start.values.min? = some least ↔
    IsLeast {first | ∃ r, start.get? r = some first} least := by
  simp only [List.min?_eq_some_iff, SortedMap.mem_values_iff]
  rfl

open Classical in
/-- **Stopping early loses nothing.** Without a frontier nothing is found. Otherwise just those
operations are found, in the order of the schedule, that stand at or behind the least start, are not
cut off, and act on a resource on which the frontier has begun. -/
theorem operationsUntilBlocked_exact (hs : ∀ slot ∈ slots, slot.Sound) (start : Frontier)
    (blocks : ω → Bool) :
    (start = ∅ → operationsUntilBlocked slots start blocks = []) ∧
    ∀ least, IsLeast {first | ∃ r, start.get? r = some first} least →
      operationsUntilBlocked slots start blocks = (Schedule.indexedOperations slots).filter
        fun e => decide (least ≤ e.1 ∧ ¬CutOff slots least blocks e.1 e.2 ∧
          ∃ r ∈ resources e.2, ∃ first ≤ e.1, start.get? r = some first) := by
  constructor
  · intro hempty
    subst hempty
    rfl
  · intro least hleast
    rw [operationsUntilBlocked_eq_filter hs (min?_values_eq_some_iff.2 hleast)]
    exact List.filter_congr fun e _ => decide_eq_decide.2 Iff.rfl

/-- The blocker stands at the least start, on a resource that starts behind it. It cuts off an
operation on that resource, which cuts off another one in its turn. -/
theorem operationsUntilBlocked_exact_staggered :
    let early : Instruction := { name := "early", resources := [.line 0] }
    let m : Instruction := { name := "m", resources := [.line 1] }
    let x : Instruction := { name := "x", resources := [.line 0] }
    let cz : Instruction := { name := "cz", resources := [.line 1, .line 0] }
    let y : Instruction := { name := "y", resources := [.line 2] }
    let slots := [[early], [m, x], [cz, y], [x, y]].map Slot.ofApart
    let start : Frontier := SortedMap.ofList [(.line 0, 1), (.line 1, 2), (.line 2, 2)]
    let blocks : Instruction → Bool := fun op => op.name == "m"
    (∀ slot ∈ slots, slot.Sound) ∧ IsLeast {first | ∃ r, start.get? r = some first} 1 ∧
    (operationsUntilBlocked slots start blocks).map (fun e => (e.1, e.2.name)) =
      [(1, "x"), (2, "y"), (3, "y")] ∧
    (∀ e, e ∈ operationsUntilBlocked slots start blocks ↔
      e ∈ Schedule.indexedOperations slots ∧ 1 ≤ e.1 ∧ ¬CutOff slots 1 blocks e.1 e.2 ∧
        ∃ r ∈ resources e.2, ∃ first ≤ e.1, start.get? r = some first) := by
  intro early m x cz y slots start blocks
  have hs : ∀ slot ∈ slots, slot.Sound := Slot.sound_map_ofApart (by decide)
  have hleast : IsLeast {first | ∃ r, start.get? r = some first} 1 :=
    min?_values_eq_some_iff.1 (by decide +kernel)
  refine ⟨hs, hleast, by decide +kernel, fun e => ?_⟩
  classical
  rw [(operationsUntilBlocked_exact hs start blocks).2 1 hleast, List.mem_filter,
    decide_eq_true_iff]

/-! ### Within the reach of the frontier -/

theorem CutInAdvance.cutOff {i : Nat} {op : ω} (h : CutInAdvance slots least blocks start i op) :
    CutOff slots least blocks i op := by
  induction h with
  | ahead hr hget hle hcut => exact cutOff_iff.2 (.inr ⟨_, hr, hcut.mono hle⟩)
  | behind hle hlt hmem hshare _ ih => exact .behind hle hlt hmem hshare ih

/-- To an operation that the frontier reaches, a cut comes in advance or not at all. -/
theorem CutOff.cutInAdvance {i : Nat} {op : ω} (h : CutOff slots least blocks i op) :
    ¬Stops slots start blocks i op → CutInAdvance slots least blocks start i op := by
  induction h with
  | blocker hb => exact fun hpass => absurd (.blocker hb) hpass
  | @behind i j op earlier hle hlt hmem hshare hcut ih =>
    intro hpass
    obtain ⟨r, hr, hre⟩ := hshare
    obtain ⟨first, hfirst, hget, hfree⟩ := (not_stops_iff.1 hpass).2 r hr
    rcases Nat.lt_or_ge j first with hj | hj
    · exact .ahead hr hget hfirst ⟨j, hle, hj, earlier, hmem, hre, hcut⟩
    · have hearlier : ¬Stops slots start blocks j earlier :=
        fun hstop => hfree j hj hlt ⟨earlier, hmem, hre, hstop⟩
      exact .behind hle hlt hmem ⟨r, hr, hre⟩ (ih hearlier)

theorem not_cutInAdvance
    (h : ∀ r first, start.get? r = some first → ¬CutBefore slots least blocks r first)
    {i : Nat} {op : ω} : ¬CutInAdvance slots least blocks start i op := by
  intro hcut
  induction hcut with
  | ahead _ hget _ hcut => exact h _ _ hget hcut
  | behind _ _ _ _ _ ih => exact ih

/-- **What blockers leave of the reach of a frontier.** An operation between a frontier and its
reach is found unless it is cut off in advance. So everything between them is found where no
resource of the frontier is cut off before its start. -/
theorem operationsUntilBlocked_of_reach (hs : ∀ slot ∈ slots, slot.Sound) (start : Frontier)
    (blocks : ω → Bool) :
    (∀ e ∈ operationsBetween slots start (reachableFrontier slots start blocks) false,
      e ∈ operationsUntilBlocked slots start blocks ↔
        ¬CutInAdvance slots (leastStart start) blocks start e.1 e.2) ∧
    ((∀ r first, start.get? r = some first →
        ¬CutBefore slots (leastStart start) blocks r first) →
      ∀ e ∈ operationsBetween slots start (reachableFrontier slots start blocks) false,
        e ∈ operationsUntilBlocked slots start blocks) := by
  have hfound : ∀ e ∈ operationsBetween slots start (reachableFrontier slots start blocks) false,
      e ∈ operationsUntilBlocked slots start blocks ↔
        ¬CutInAdvance slots (leastStart start) blocks start e.1 e.2 := by
    intro e he
    obtain ⟨hop, hne, hpass⟩ := (mem_operationsBetween_reach_iff hs).1 he
    obtain ⟨r, hr⟩ := List.exists_mem_of_ne_nil _ hne
    obtain ⟨first, -, hget, -, hle, -⟩ := lt_reach_of_not_stops hs hop hpass hr
    rw [mem_operationsUntilBlocked_iff hs, and_iff_right hop, FoundAt,
      and_iff_left ⟨r, hr, first, hle, hget⟩]
    exact not_congr ⟨fun hcut => hcut.cutInAdvance hpass, CutInAdvance.cutOff⟩
  exact ⟨hfound, fun hfree e he => (hfound e he).2 (not_cutInAdvance hfree)⟩

/-- The blocker acts on the second resource, which starts behind it and is nevertheless cut off.
Where both start at once, the gate on that resource is out of reach. -/
theorem operationsUntilBlocked_of_reach_two_gates :
    let m : Instruction := { name := "m", resources := [.line 1] }
    let x : Instruction := { name := "x", resources := [.line 1] }
    let y : Instruction := { name := "y", resources := [.line 0] }
    let slots := [[m], [x, y]].map Slot.ofApart
    let late : Frontier := SortedMap.ofList [(.line 0, 0), (.line 1, 1)]
    let level : Frontier := SortedMap.ofList [(.line 0, 0), (.line 1, 0)]
    let blocks : Instruction → Bool := fun op => op.name == "m"
    let within := fun start =>
      operationsBetween slots start (reachableFrontier slots start blocks) false
    let named := fun l : List (Nat × Instruction) => l.map fun e => (e.1, e.2.name)
    (∀ slot ∈ slots, slot.Sound) ∧
    named (within late) = [(1, "y"), (1, "x")] ∧
    named (operationsUntilBlocked slots late blocks) = [(1, "y")] ∧
    (∀ e ∈ within late, e ∈ operationsUntilBlocked slots late blocks ↔
      ¬CutInAdvance slots (leastStart late) blocks late e.1 e.2) ∧
    named (within level) = [(1, "y")] ∧
    (∀ r first, level.get? r = some first →
      ¬CutBefore slots (leastStart level) blocks r first) ∧
    (∀ e ∈ within level, e ∈ operationsUntilBlocked slots level blocks) := by
  intro m x y slots late level blocks within named
  have hs : ∀ slot ∈ slots, slot.Sound := Slot.sound_map_ofApart (by decide)
  have hlevel : ∀ r first, level.get? r = some first →
      ¬CutBefore slots (leastStart level) blocks r first := by
    intro r first hget
    have hvalues : ∀ v ∈ level.values, v = leastStart level := by decide +kernel
    exact hvalues first (SortedMap.mem_values_iff.2 ⟨r, hget⟩) ▸ not_cutBefore_least r
  refine ⟨hs, by decide +kernel, by decide +kernel, ?_, by decide +kernel, hlevel, ?_⟩
  · exact (operationsUntilBlocked_of_reach hs late blocks).1
  · exact (operationsUntilBlocked_of_reach hs level blocks).2 hlevel

/-- So a frontier may reach operations that are not found before blockers cut it off. -/
theorem reached_but_cut_off :
    let m : Instruction := { name := "m", resources := [.line 1] }
    let x : Instruction := { name := "x", resources := [.line 1] }
    let slots := [[m], [x]].map Slot.ofApart
    let start : Frontier := SortedMap.ofList [(.line 0, 0), (.line 1, 1)]
    let blocks : Instruction → Bool := fun op => op.name == "m"
    (∀ slot ∈ slots, slot.Sound) ∧
    ¬∀ e ∈ operationsBetween slots start (reachableFrontier slots start blocks) false,
      e ∈ operationsUntilBlocked slots start blocks := by
  intro m x slots start blocks
  have hs : ∀ slot ∈ slots, slot.Sound := Slot.sound_map_ofApart (by decide)
  let stop := reachableFrontier slots start blocks
  have hwithin : (operationsBetween slots start stop false).isEmpty = false := by decide +kernel
  have hnone : operationsUntilBlocked slots start blocks = [] :=
    List.isEmpty_iff.1 (by decide +kernel)
  refine ⟨hs, fun hall => ?_⟩
  obtain ⟨e, he⟩ := List.exists_mem_of_ne_nil _ (List.isEmpty_eq_false_iff.1 hwithin)
  have hfound := hall e he
  rw [hnone] at hfound
  exact List.not_mem_nil hfound

end Timetable
