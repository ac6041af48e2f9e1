import Timetable.Proofs.Merge.Tetris

/-!
# A concatenation is a fold

A concatenation works in one buffer, which has room for everything that is still to come. Outside the
window the buffer stays empty, and how far a schedule slides depends on the window alone. So each
step leaves in the window what it would leave in a buffer of its own, cut to the two schedules, and
concatenating a list is concatenating two at a time, from the left.

* `slideIn`: one schedule slid into another, in a buffer that has just the slots of both.
* `TetrisBuffer.overlay_append`: what is written into a part of a buffer does not see the rest.
* `TetrisBuffer.push_around`: a step in a buffer that is empty outside its window.
* `tetrisConcat_pair`, `slideIn_eq_ok`: the concatenation of two, and where their operations are.
* `exists_foldlM_tetrisConcat`: sound schedules have a result.
* `tetrisConcat_foldlM`: the theorem.
-/

namespace Timetable

variable {ω : Type}

theorem padded_padded (before behind lead tail : Nat) (slots : List (Slot ω)) :
    padded before behind (padded lead tail slots)
      = padded (before + lead) (tail + behind) slots := by
  simp only [padded, ← List.replicate_append_replicate, List.append_assoc]

variable [Operation ω]

/-! ### Writing into a part of a buffer -/

namespace TetrisBuffer

/-- What is written into the middle of a buffer is written as if the middle were all of it. -/
theorem overlay_append (before behind : List (Slot ω)) (origin : Nat) {incoming : List (Slot ω)} :
    ∀ {position : Nat} {middle : List (Slot ω)}, position + incoming.length ≤ middle.length →
      overlay (before.length + origin) (before.length + position) incoming
          (before ++ middle ++ behind)
        = (overlay origin position incoming middle).map (before ++ · ++ behind) := by
  induction incoming with
  | nil => exact fun _ => rfl
  | cons slot incoming ih =>
    intro position middle hlen
    rw [List.length_cons] at hlen
    have hp : position < middle.length := by omega
    have hle : before.length + position < (before ++ middle).length := by
      rw [List.length_append]
      omega
    have hthere : (before ++ middle ++ behind)[before.length + position]? = middle[position]? := by
      rw [List.getElem?_append_left hle, List.getElem?_append_right (Nat.le_add_right _ _),
        Nat.add_sub_cancel_left]
    have hset : ∀ both, (before ++ middle ++ behind).set (before.length + position) both
        = before ++ middle.set position both ++ behind := by
      intro both
      rw [List.set_append_left _ _ hle, List.set_append_right _ _ (Nat.le_add_right _ _),
        Nat.add_sub_cancel_left]
    have hroom : ∀ both, position + 1 + incoming.length ≤ (middle.set position both).length := by
      intro both
      rw [List.length_set]
      omega
    rw [overlay, overlay, hthere, List.getElem?_eq_getElem hp, Nat.add_sub_add_left]
    dsimp only
    cases (middle[position].disjointUnion slot).mapError (Fault.inMerge (position - origin)) with
    | error e => rfl
    | ok both =>
      show overlay _ (before.length + (position + 1)) incoming _ = _
      rw [hset]
      exact ih (hroom both)

theorem length_overlay {origin : Nat} {incoming : List (Slot ω)} :
    ∀ {position : Nat} {buffer merged : List (Slot ω)},
      overlay origin position incoming buffer = .ok merged → merged.length = buffer.length := by
  induction incoming with
  | nil =>
    intro position buffer merged h
    cases h
    rfl
  | cons slot incoming ih =>
    intro position buffer merged h
    rw [overlay] at h
    split at h
    · cases h
    · obtain ⟨both, -, h⟩ := bind_eq_ok_iff.1 h
      rw [ih h, List.length_set]

end TetrisBuffer

/-! ### Two schedules -/

/-- The incoming schedule slid into the accumulated one, in a buffer that has the slots of both and
no others. Its first slot comes to lie before that of the accumulated schedule if it slides farther
than the accumulated schedule is long. -/
def slideIn (accumulated incoming : List (Slot ω)) (align : Alignment) :
    Except Fault (List (Slot ω)) :=
  let slide := slideBound accumulated incoming align
  TetrisBuffer.overlay 0 (accumulated.length - slide) incoming
    (padded (slide - accumulated.length) (incoming.length - slide) accumulated)

variable {accumulated incoming : List (Slot ω)} {slide : Nat}

theorem length_of_slideIn {merged : List (Slot ω)} {align : Alignment}
    (hslide : slideBound accumulated incoming align = slide)
    (h : slideIn accumulated incoming align = .ok merged) :
    merged.length
      = slide - accumulated.length + accumulated.length + (incoming.length - slide) := by
  subst hslide
  rw [TetrisBuffer.length_overlay h, length_padded]

/-- Sound schedules slide together: nothing collides, and each slot of the result holds what the two
schedules have there. -/
theorem slideIn_eq_ok (hacc : ∀ slot ∈ accumulated, slot.Sound)
    (hin : ∀ slot ∈ incoming, slot.Sound) (align : Alignment)
    (hslide : slideBound accumulated incoming align = slide) :
    ∃ merged, slideIn accumulated incoming align = .ok merged ∧ (∀ slot ∈ merged, slot.Sound) ∧
      ∀ x, operationsAt merged x = operationsFrom (slide - accumulated.length) accumulated x
        ++ operationsFrom (accumulated.length - slide) incoming x := by
  have hmax := slideBound_le_max accumulated incoming align
  rw [hslide] at hmax
  have hfree : ∀ j, ∀ a ∈ operationsAt (padded (slide - accumulated.length)
      (incoming.length - slide) accumulated) (accumulated.length - slide + j),
      ∀ b ∈ operationsAt incoming j, ¬SharesResource a b := by
    intro j a ha b hb hshare
    rw [operationsAt_padded] at ha
    obtain ⟨i, hi, hai⟩ := mem_operationsFrom.1 ha
    have hlt := slideBound_add_lt align hai hb hshare
    omega
  obtain ⟨merged, hmerged, -, hsound, hcontent⟩ :=
    TetrisBuffer.overlay_eq_ok 0 (sound_padded hacc _ _) hin
      (by rw [length_padded]; omega) hfree
  refine ⟨merged, ?_, hsound, fun x => by rw [hcontent, operationsAt_padded]⟩
  rw [slideIn, hslide]
  exact hmerged

/-! ### The buffer -/

namespace TetrisBuffer

/-- The buffer whose window holds the slots, with empty slots before and behind it. -/
def around (before behind : Nat) (slots : List (Slot ω)) : TetrisBuffer ω :=
  ⟨padded before behind slots, before, slots.length⟩

omit [Operation ω] in
theorem window_around (before behind : Nat) (slots : List (Slot ω)) :
    (around before behind slots).window = slots := by
  have hbefore : before = (List.replicate before (Slot.empty : Slot ω)).length :=
    List.length_replicate.symm
  rw [window, around, padded, List.append_assoc, List.drop_left' hbefore.symm]
  exact List.take_left

/-- A schedule that slides into the window leaves the rest of the buffer empty, and the window as it
would be without the rest. -/
theorem push_around {before behind : Nat} (hbefore : incoming.length ≤ before)
    (hbehind : incoming.length ≤ behind) (align : Alignment)
    (hslide : slideBound accumulated incoming align = slide) :
    (around before behind accumulated).push align incoming
      = (slideIn accumulated incoming align).map
          (around (before - (slide - accumulated.length))
            (behind - (incoming.length - slide))) := by
  have hmax := slideBound_le_max accumulated incoming align
  rw [hslide] at hmax
  generalize hahead : before - (slide - accumulated.length) = ahead
  generalize hafter : behind - (incoming.length - slide) = after
  have hbuffer : padded before behind accumulated = padded ahead after
      (padded (slide - accumulated.length) (incoming.length - slide) accumulated) := by
    rw [padded_padded]
    congr 1 <;> omega
  have hposition : before + accumulated.length - slide = ahead + (accumulated.length - slide) := by
    omega
  have hoffset : min before (ahead + (accumulated.length - slide)) = ahead + 0 := by omega
  have hwrite : overlay (ahead + 0) (ahead + (accumulated.length - slide)) incoming
      (padded before behind accumulated)
        = (slideIn accumulated incoming align).map (padded ahead after) := by
    have hfits : accumulated.length - slide + incoming.length
        ≤ (padded (slide - accumulated.length) (incoming.length - slide) accumulated).length := by
      rw [length_padded]
      omega
    have happend :=
      overlay_append (List.replicate ahead .empty) (List.replicate after .empty) 0 hfits
    rw [List.length_replicate] at happend
    rw [hbuffer, slideIn, hslide]
    exact happend
  rw [push, window_around, hslide, around]
  dsimp only
  rw [hposition, hoffset, hwrite]
  cases hmerged : slideIn accumulated incoming align with
  | error e => rfl
  | ok merged =>
    have hlength := length_of_slideIn hslide hmerged
    have hwindow : max (max accumulated.length incoming.length)
        (accumulated.length + incoming.length - slide) = merged.length := by omega
    show Except.ok (TetrisBuffer.mk (padded ahead after merged) (ahead + 0) _) = _
    rw [hwindow]
    rfl

end TetrisBuffer

theorem tetrisConcat_pair (accumulated incoming : List (Slot ω)) (align : Alignment) :
    tetrisConcat [accumulated, incoming] align = slideIn accumulated incoming align := by
  have hpush := TetrisBuffer.push_around (Nat.le_refl incoming.length) (Nat.le_refl _) align
    (rfl : slideBound accumulated incoming align = _)
  have hpad : [incoming].flatten.length = incoming.length := by simp
  rw [tetrisConcat, hpad]
  show ((TetrisBuffer.around _ _ accumulated).push align incoming >>= pure) >>= _ = _
  rw [hpush]
  cases slideIn accumulated incoming align with
  | error e => rfl
  | ok merged => exact congrArg Except.ok (TetrisBuffer.window_around _ _ merged)

namespace TetrisBuffer

/-- Where there is room for all of them, schedules slide into the window as if each were concatenated
with what is there. -/
theorem pushAll_around (align : Alignment) {rest : List (List (Slot ω))} :
    ∀ {before behind : Nat} {accumulated : List (Slot ω)}, rest.flatten.length ≤ before →
      rest.flatten.length ≤ behind →
      ((around before behind accumulated).pushAll align rest).map window
        = rest.foldlM (fun accumulated incoming => tetrisConcat [accumulated, incoming] align)
            accumulated := by
  induction rest with
  | nil => exact fun _ _ => congrArg Except.ok (window_around _ _ _)
  | cons incoming rest ih =>
    intro before behind accumulated hbefore hbehind
    rw [List.flatten_cons, List.length_append] at hbefore hbehind
    have hmax := slideBound_le_max accumulated incoming align
    have hpush := push_around (Nat.le_of_add_right_le hbefore) (Nat.le_of_add_right_le hbehind) align
      (rfl : slideBound accumulated incoming align = _)
    rw [List.foldlM_cons, tetrisConcat_pair, pushAll, hpush]
    cases slideIn accumulated incoming align with
    | error e => rfl
    | ok merged => exact ih (by omega) (by omega)

end TetrisBuffer

/-! ### The concatenation -/

/-- Sound schedules can be concatenated two at a time. -/
theorem exists_foldlM_tetrisConcat (align : Alignment) {rest : List (List (Slot ω))} :
    ∀ {first : List (Slot ω)}, (∀ slots ∈ first :: rest, ∀ slot ∈ slots, slot.Sound) →
      ∃ merged, rest.foldlM
        (fun accumulated incoming => tetrisConcat [accumulated, incoming] align) first
          = .ok merged := by
  induction rest with
  | nil => exact fun {first} _ => ⟨first, rfl⟩
  | cons incoming rest ih =>
    intro first hsound
    simp only [List.forall_mem_cons] at hsound ih
    obtain ⟨hfirst, hincoming, hrest⟩ := hsound
    obtain ⟨merged, hmerged, hsound, -⟩ := slideIn_eq_ok hfirst hincoming align rfl
    rw [List.foldlM_cons, tetrisConcat_pair, hmerged]
    exact ih ⟨hsound, hrest⟩

/-- **Concatenating a list is concatenating two at a time, from the left.** The result has the same
slots, with the same order in each slot, or the same fault; schedules of sound slots have one. -/
theorem tetrisConcat_foldlM (first : List (Slot ω)) (rest : List (List (Slot ω)))
    (align : Alignment) :
    tetrisConcat (first :: rest) align
        = rest.foldlM (fun accumulated incoming => tetrisConcat [accumulated, incoming] align)
            first ∧
      ((∀ slots ∈ first :: rest, ∀ slot ∈ slots, slot.Sound) →
        ∃ merged, tetrisConcat (first :: rest) align = .ok merged) := by
  have hfold : tetrisConcat (first :: rest) align
      = rest.foldlM (fun accumulated incoming => tetrisConcat [accumulated, incoming] align)
          first := by
    rw [← TetrisBuffer.pushAll_around align (Nat.le_refl _) (Nat.le_refl _), tetrisConcat]
    show (TetrisBuffer.around _ _ first).pushAll align rest >>= _ = _
    cases (TetrisBuffer.around _ _ first).pushAll align rest <;> rfl
  refine ⟨hfold, fun hsound => ?_⟩
  rw [hfold]
  exact exists_foldlM_tetrisConcat align hsound

/-- The second schedule reaches past the start of the first one, and the third one meets the window
where it has come to begin. -/
theorem tetrisConcat_foldlM_past_start :
    let a : Instruction := { name := "a", resources := [.line 0] }
    let b : Instruction := { name := "b", resources := [.line 1] }
    let slotA : Slot Instruction := ⟨[a], SortedMap.insert ∅ (.line 0) 0⟩
    let slotB : Slot Instruction := ⟨[b], SortedMap.insert ∅ (.line 1) 0⟩
    let first := [slotA]
    let rest := [[slotB, slotB, slotA], [slotB, slotA]]
    (∀ slots ∈ first :: rest, ∀ slot ∈ slots, slot.Sound) ∧
      tetrisConcat (first :: rest) .right
        = rest.foldlM (fun accumulated incoming => tetrisConcat [accumulated, incoming] .right)
            first ∧
      ∃ merged, tetrisConcat (first :: rest) .right = .ok merged := by
  intro a b slotA slotB first rest
  have hA : slotA.Sound := Slot.Sound.ofOperations (rfl : Slot.ofOperations [a] = .ok slotA)
  have hB : slotB.Sound := Slot.Sound.ofOperations (rfl : Slot.ofOperations [b] = .ok slotB)
  have hsound : ∀ slots ∈ first :: rest, ∀ slot ∈ slots, slot.Sound := by
    show ∀ slots ∈ [[slotA], [slotB, slotB, slotA], [slotB, slotA]], ∀ slot ∈ slots, slot.Sound
    simp [hA, hB]
  obtain ⟨hfold, hmerged⟩ := tetrisConcat_foldlM first rest .right
  exact ⟨hsound, hfold, hmerged hsound⟩

end Timetable
