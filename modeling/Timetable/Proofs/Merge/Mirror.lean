import Timetable.Proofs.Merge.Fold

/-!
# Concatenation mirrored in time

Read from the last slot to the first, a schedule that slides back into another is one into which the
other slides back. The two alignments that look at one end each change their roles, and so do the two
schedules. The slide is the same either way, because it is the largest one that the limit and the
common resources allow, and neither of these depends on the side from which the seam is scanned.

* `Alignment.mirror`: the alignment by the other end.
* `operationsFrom_reverse`: a schedule among empty slots, read from the end.
* `le_slideBound_iff`: the slide by what it must keep, without the scan.
* `slideBound_mirror`: the slide is the same in the mirror.
* `tetrisConcat_mirror`: the theorem.
-/

namespace Timetable

variable {ω : Type}

def Alignment.mirror : Alignment → Alignment
  | .left => .right
  | .right => .left
  | .first => .first

theorem Alignment.mirror_mirror (align : Alignment) : align.mirror.mirror = align := by
  cases align <;> rfl

/-! ### Slots read from the end -/

theorem operationsAt_reverse {slots : List (Slot ω)} {x : Nat} (hx : x < slots.length) :
    operationsAt slots.reverse x = operationsAt slots (slots.length - 1 - x) := by
  rw [operationsAt, List.getElem?_reverse hx, operationsAt]

/-- A reversed schedule with `before` slots in front of it and `behind` slots after it: counted from
the other end, it is the schedule itself with `behind` slots in front of it. -/
theorem operationsFrom_reverse (slots : List (Slot ω)) {before behind x : Nat}
    (hx : x < before + slots.length + behind) :
    operationsFrom before slots.reverse x
      = operationsFrom behind slots (before + slots.length + behind - 1 - x) := by
  rw [operationsFrom, operationsFrom]
  by_cases hbefore : before ≤ x
  · rw [if_pos hbefore]
    rcases Nat.lt_or_ge (x - before) slots.length with hlt | hge
    · have hindex : before + slots.length + behind - 1 - x - behind
          = slots.length - 1 - (x - before) := by omega
      rw [if_pos (by omega), operationsAt_reverse hlt, hindex]
    · rw [if_neg (by omega), operationsAt_of_length_le (by rwa [List.length_reverse])]
  · rw [if_neg hbefore, if_pos (by omega), operationsAt_of_length_le (by omega)]

/-! ### The slide -/

theorem slideLimit_mirror (accumulated incoming : List (Slot ω)) (align : Alignment) :
    slideLimit incoming.reverse accumulated.reverse align.mirror
      = slideLimit accumulated incoming align := by
  cases align with
  | left => exact List.length_reverse
  | right => exact List.length_reverse
  | first =>
    show min incoming.reverse.length accumulated.reverse.length = _
    rw [List.length_reverse, List.length_reverse, Nat.min_comm]
    rfl

variable [Operation ω]

/-- How far a schedule slides: as far as the limit, and not so far that it uses a resource before the
accumulated schedule has finished with it. -/
theorem le_slideBound_iff {accumulated incoming : List (Slot ω)} {align : Alignment} {d : Nat} :
    d ≤ slideBound accumulated incoming align ↔
      d ≤ slideLimit accumulated incoming align ∧
        ∀ i j, ∀ a ∈ operationsAt accumulated i, ∀ b ∈ operationsAt incoming j,
          SharesResource a b → d + i < accumulated.length + j := by
  constructor
  · intro hd
    refine ⟨Nat.le_trans hd (slideBound_le_limit _ _ _), fun i j a ha b hb hshare => ?_⟩
    have hlt := slideBound_add_lt align ha hb hshare
    omega
  · intro h
    obtain ⟨hlimit, horder⟩ := h
    by_cases hstop : slideBound accumulated incoming align = slideLimit accumulated incoming align
    · exact hstop ▸ hlimit
    · obtain ⟨i, j, a, ha, b, hb, hshare, heq⟩ := exists_slideBound_add_eq align hstop
      have hlt := horder i j a ha b hb hshare
      omega

theorem slideBound_le_mirror (accumulated incoming : List (Slot ω)) (align : Alignment) :
    slideBound accumulated incoming align
      ≤ slideBound incoming.reverse accumulated.reverse align.mirror := by
  obtain ⟨hlimit, horder⟩ := le_slideBound_iff.1 (Nat.le_refl (slideBound accumulated incoming align))
  refine le_slideBound_iff.2 ⟨by rwa [slideLimit_mirror], fun i j b hb a ha hshare => ?_⟩
  have hi := lt_length_of_mem_operationsAt hb
  have hj := lt_length_of_mem_operationsAt ha
  rw [List.length_reverse] at hi hj ⊢
  rw [operationsAt_reverse hi] at hb
  rw [operationsAt_reverse hj] at ha
  have hlt := horder _ _ a ha b hb hshare.symm
  omega

/-- The slide is the same from the other end. -/
theorem slideBound_mirror (accumulated incoming : List (Slot ω)) (align : Alignment) :
    slideBound incoming.reverse accumulated.reverse align.mirror
      = slideBound accumulated incoming align := by
  apply Nat.le_antisymm
  · have hle := slideBound_le_mirror incoming.reverse accumulated.reverse align.mirror
    rwa [List.reverse_reverse, List.reverse_reverse, Alignment.mirror_mirror] at hle
  · exact slideBound_le_mirror accumulated incoming align

/-! ### The concatenation -/

/-- **Concatenation is symmetric in time.** The concatenation of two schedules, read from its end, is
that of the two read from their ends, in the other order and with the other alignment: it has as many
slots, and each slot holds the same operations. -/
theorem tetrisConcat_mirror {a b : List (Slot ω)} (ha : ∀ slot ∈ a, slot.Sound)
    (hb : ∀ slot ∈ b, slot.Sound) (align : Alignment) :
    ∃ merged mirrored, tetrisConcat [a, b] align = .ok merged ∧
      tetrisConcat [b.reverse, a.reverse] align.mirror = .ok mirrored ∧
      mirrored.length = merged.length ∧
      ∀ x, (operationsAt mirrored x).Perm (operationsAt merged.reverse x) := by
  have hreverse : ∀ {slots : List (Slot ω)}, (∀ slot ∈ slots, slot.Sound) →
      ∀ slot ∈ slots.reverse, slot.Sound := fun h slot hslot => h slot (List.mem_reverse.1 hslot)
  generalize hslide : slideBound a b align = slide
  have hmirror : slideBound b.reverse a.reverse align.mirror = slide :=
    (slideBound_mirror a b align).trans hslide
  obtain ⟨merged, hmerged, -, hcontent⟩ := slideIn_eq_ok ha hb align hslide
  obtain ⟨mirrored, hmirrored, -, hcontent'⟩ :=
    slideIn_eq_ok (hreverse hb) (hreverse ha) align.mirror hmirror
  have hlength := length_of_slideIn hslide hmerged
  have hlength' := length_of_slideIn hmirror hmirrored
  simp only [List.length_reverse] at hlength' hcontent'
  refine ⟨merged, mirrored, by rwa [tetrisConcat_pair], by rwa [tetrisConcat_pair], by omega,
    fun x => ?_⟩
  rcases Nat.lt_or_ge x merged.length with hx | hx
  · -- Each of the schedules lies in the mirror where it lay before, counted from the end.
    have hlen : slide - b.length + b.length + (a.length - slide) = merged.length := by omega
    have hlen' : b.length - slide + a.length + (slide - a.length) = merged.length := by omega
    rw [hcontent', operationsFrom_reverse b (hlen ▸ hx), operationsFrom_reverse a (hlen' ▸ hx), hlen,
      hlen', operationsAt_reverse hx, hcontent]
    exact List.perm_append_comm
  · rw [operationsAt_of_length_le (by omega), operationsAt_of_length_le (by rwa [List.length_reverse])]

/-- The second schedule reaches past the start of the first one. In the slot that both use their order
is the other way round in the mirror. -/
theorem tetrisConcat_mirror_past_start :
    let a : Instruction := { name := "a", resources := [.line 0] }
    let b : Instruction := { name := "b", resources := [.line 1] }
    let slotA : Slot Instruction := ⟨[a], SortedMap.insert ∅ (.line 0) 0⟩
    let slotB : Slot Instruction := ⟨[b], SortedMap.insert ∅ (.line 1) 0⟩
    let first := [slotA]
    let second := [slotB, slotB, slotA]
    ((∀ slot ∈ first, slot.Sound) ∧ ∀ slot ∈ second, slot.Sound) ∧
      ∃ merged mirrored, tetrisConcat [first, second] .right = .ok merged ∧
        tetrisConcat [second.reverse, first.reverse] .left = .ok mirrored ∧
        mirrored.length = merged.length ∧
        ∀ x, (operationsAt mirrored x).Perm (operationsAt merged.reverse x) := by
  intro a b slotA slotB first second
  have hA : slotA.Sound := Slot.Sound.ofOperations (rfl : Slot.ofOperations [a] = .ok slotA)
  have hB : slotB.Sound := Slot.Sound.ofOperations (rfl : Slot.ofOperations [b] = .ok slotB)
  have hfirst : ∀ slot ∈ first, slot.Sound := by
    show ∀ slot ∈ [slotA], slot.Sound
    simp [hA]
  have hsecond : ∀ slot ∈ second, slot.Sound := by
    show ∀ slot ∈ [slotB, slotB, slotA], slot.Sound
    simp [hA, hB]
  exact ⟨⟨hfirst, hsecond⟩, tetrisConcat_mirror hfirst hsecond .right⟩

end Timetable
