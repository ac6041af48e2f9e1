import Timetable.Proofs.Merge.Slide
import Timetable.Instruction
import Timetable.Merge.Tetris

/-!
# Concatenation is rigid

The buffer of a concatenation holds each schedule as a whole, from an offset of its own. A schedule
that slides in finds room for all its slots, meets no operation on one of its resources, and comes
to lie after every earlier use of them. The room on either side of the window shrinks by the length
of the schedule and no faster, whichever side the window grows to.

* `operationsFrom`, `stacked`: the operations of a slot where schedules lie on top of each other.
* `padded`: a schedule with empty slots around it.
* `InOrder`: uses of a resource by two schedules keep the order of the schedules.
* `TetrisBuffer.Holds`: the invariant of the buffer, with the room that is left.
* `TetrisBuffer.Holds.push`, `TetrisBuffer.Holds.pushAll_keeping`: sliding schedules in keeps it.
* `tetrisConcat_rigid`: the theorem.
-/

namespace Timetable

variable {ω : Type}

/-- The operations that a schedule puts in the slot `x` when its first slot is put in `position`. -/
def operationsFrom (position : Nat) (slots : List (Slot ω)) (x : Nat) : List ω :=
  if position ≤ x then operationsAt slots (x - position) else []

/-- The operations in the slot `x` of schedules that are each put in from an offset of their own. -/
def stacked (placed : List (Nat × List (Slot ω))) (x : Nat) : List ω :=
  placed.flatMap fun e => operationsFrom e.1 e.2 x

/-- Every use of a resource by the first schedule comes strictly before every use by the second. -/
def InOrder [Operation ω] (e f : Nat × List (Slot ω)) : Prop :=
  ∀ i j, ∀ a ∈ operationsAt e.2 i, ∀ b ∈ operationsAt f.2 j,
    SharesResource a b → e.1 + i < f.1 + j

/-! ### Schedules on top of each other -/

theorem mem_operationsFrom {position x : Nat} {slots : List (Slot ω)} {op : ω} :
    op ∈ operationsFrom position slots x ↔ ∃ i, x = position + i ∧ op ∈ operationsAt slots i := by
  rw [operationsFrom]
  split
  · rename_i h
    constructor
    · exact fun hop => ⟨x - position, by omega, hop⟩
    · intro h
      obtain ⟨i, rfl, hop⟩ := h
      rwa [Nat.add_sub_cancel_left]
  · rename_i h
    constructor
    · exact fun hop => nomatch hop
    · intro h
      obtain ⟨i, rfl, -⟩ := h
      exact absurd (Nat.le_add_right position i) h

theorem operationsFrom_cons (position x : Nat) (slot : Slot ω) (slots : List (Slot ω)) :
    operationsFrom position (slot :: slots) x =
      if x = position then slot.operations else operationsFrom (position + 1) slots x := by
  rw [operationsFrom, operationsFrom]
  by_cases h : x = position
  · rw [if_pos (Nat.le_of_eq h.symm), if_pos h, h, Nat.sub_self]
    rfl
  · rw [if_neg h]
    by_cases hlt : position + 1 ≤ x
    · have hsub : x - position = x - (position + 1) + 1 := by omega
      rw [if_pos (by omega), if_pos hlt, hsub]
      rfl
    · rw [if_neg (by omega), if_neg hlt]

/-- Schedules lie alike when all offsets and the slot that is looked at are moved alike. -/
theorem operationsFrom_sub {position origin : Nat} (h : origin ≤ position) (slots : List (Slot ω))
    (x : Nat) : operationsFrom (position - origin) slots x
      = operationsFrom position slots (origin + x) := by
  rw [operationsFrom, operationsFrom]
  have hsub : x - (position - origin) = origin + x - position := by omega
  rw [hsub]
  by_cases hx : position ≤ origin + x
  · rw [if_pos hx, if_pos (by omega)]
  · rw [if_neg hx, if_neg (by omega)]

theorem mem_stacked {placed : List (Nat × List (Slot ω))} {x : Nat} {op : ω} :
    op ∈ stacked placed x ↔ ∃ e ∈ placed, ∃ i, x = e.1 + i ∧ op ∈ operationsAt e.2 i := by
  simp only [stacked, List.mem_flatMap, mem_operationsFrom]

theorem stacked_concat (placed : List (Nat × List (Slot ω))) (position : Nat)
    (slots : List (Slot ω)) (x : Nat) :
    stacked (placed ++ [(position, slots)]) x
      = stacked placed x ++ operationsFrom position slots x := by
  rw [stacked, List.flatMap_append, List.flatMap_singleton]
  rfl

/-- The offsets counted from an origin that none of them lies before. -/
theorem stacked_map_sub {placed : List (Nat × List (Slot ω))} {origin : Nat}
    (h : ∀ e ∈ placed, origin ≤ e.1) (x : Nat) :
    stacked (placed.map fun e => (e.1 - origin, e.2)) x = stacked placed (origin + x) := by
  rw [stacked, stacked, List.flatMap_map]
  exact List.flatMap_congr fun e he => operationsFrom_sub (h e he) e.2 x

/-! ### Empty slots around a schedule -/

def padded (before behind : Nat) (slots : List (Slot ω)) : List (Slot ω) :=
  List.replicate before .empty ++ slots ++ List.replicate behind .empty

theorem length_padded (before behind : Nat) (slots : List (Slot ω)) :
    (padded before behind slots).length = before + slots.length + behind := by
  simp only [padded, List.length_append, List.length_replicate]

theorem operationsAt_padded (before behind : Nat) (slots : List (Slot ω)) (x : Nat) :
    operationsAt (padded before behind slots) x = operationsFrom before slots x := by
  rw [operationsFrom, operationsAt, padded, List.append_assoc]
  split
  · rename_i hx
    rw [List.getElem?_append_right (by rwa [List.length_replicate]), List.length_replicate]
    exact (Layout.pad slots behind).content_of_id (x - before) |>.trans (List.append_nil _)
  · rename_i hx
    rw [List.getElem?_append_left (by rw [List.length_replicate]; omega), List.getElem?_replicate]
    split <;> rfl

theorem sound_padded [Operation ω] {slots : List (Slot ω)} (h : ∀ slot ∈ slots, slot.Sound)
    (before behind : Nat) : ∀ slot ∈ padded before behind slots, slot.Sound := by
  intro slot hslot
  rw [padded, List.mem_append, List.mem_append] at hslot
  rcases hslot with (hslot | hslot) | hslot
  · rw [List.eq_of_mem_replicate hslot]
    exact Slot.sound_empty
  · exact h slot hslot
  · rw [List.eq_of_mem_replicate hslot]
    exact Slot.sound_empty

/-! ### Reading buffers -/

namespace TetrisBuffer

theorem length_window {b : TetrisBuffer ω} (h : b.offset + b.length ≤ b.slots.length) :
    b.window.length = b.length := by
  rw [window, List.length_take, List.length_drop]
  omega

theorem operationsAt_window (b : TetrisBuffer ω) (x : Nat) :
    operationsAt b.window x = if x < b.length then operationsAt b.slots (b.offset + x) else [] := by
  rw [operationsAt, window, List.getElem?_take, List.getElem?_drop]
  split <;> rfl

variable [Operation ω]

/-- A schedule is written into a buffer that has its slots and no operation in its way. -/
theorem overlay_eq_ok (origin : Nat) {incoming : List (Slot ω)} :
    ∀ {position : Nat} {buffer : List (Slot ω)}, (∀ slot ∈ buffer, slot.Sound) →
      (∀ slot ∈ incoming, slot.Sound) → position + incoming.length ≤ buffer.length →
      (∀ j, ∀ a ∈ operationsAt buffer (position + j), ∀ b ∈ operationsAt incoming j,
        ¬SharesResource a b) →
      ∃ merged, overlay origin position incoming buffer = .ok merged ∧
        merged.length = buffer.length ∧ (∀ slot ∈ merged, slot.Sound) ∧
        ∀ x, operationsAt merged x =
          operationsAt buffer x ++ operationsFrom position incoming x := by
  induction incoming with
  | nil =>
    intro position buffer hsound _ _ _
    refine ⟨buffer, rfl, rfl, hsound, fun x => ?_⟩
    have hnil : operationsFrom position ([] : List (Slot ω)) x = [] := by
      rw [operationsFrom]
      split <;> rfl
    rw [hnil, List.append_nil]
  | cons slot incoming ih =>
    intro position buffer hsound hin hlen hfree
    obtain ⟨hslot, hin⟩ := List.forall_mem_cons.1 hin
    rw [List.length_cons] at hlen
    have hp : position < buffer.length := by omega
    have hthere : buffer[position]? = some buffer[position] := List.getElem?_eq_getElem hp
    have hdisjoint : ∀ r ∈ slot.operations.flatMap resources,
        r ∉ buffer[position].operations.flatMap resources := by
      intro r hr hr'
      obtain ⟨b, hb, hrb⟩ := List.mem_flatMap.1 hr
      obtain ⟨a, ha, hra⟩ := List.mem_flatMap.1 hr'
      rw [← operationsAt_of_getElem? hthere] at ha
      exact hfree 0 a ha b hb ⟨r, hra, hrb⟩
    obtain ⟨both, hunion, hboth, hops⟩ :=
      (hsound _ (List.getElem_mem hp)).disjointUnion_eq_ok hslot hdisjoint
    have hset : ∀ x, operationsAt (buffer.set position both) x =
        if x = position then both.operations else operationsAt buffer x := operationsAt_set hp both
    have hbuffer : ∀ s ∈ buffer.set position both, s.Sound := by
      intro s hs
      rcases List.mem_or_eq_of_mem_set hs with hs | rfl
      · exact hsound s hs
      · exact hboth
    have hroom : position + 1 + incoming.length ≤ (buffer.set position both).length := by
      rw [List.length_set]
      omega
    -- The slots that are written later have not been touched.
    have hlater : ∀ j, ∀ a ∈ operationsAt (buffer.set position both) (position + 1 + j),
        ∀ b ∈ operationsAt incoming j, ¬SharesResource a b := by
      intro j a ha b hb
      rw [hset, if_neg (by omega), Nat.add_assoc, Nat.add_comm 1 j] at ha
      exact hfree (j + 1) a ha b hb
    obtain ⟨merged, hmerged, hlength, hsound', hcontent⟩ := ih hbuffer hin hroom hlater
    refine ⟨merged, ?_, ?_, hsound', fun x => ?_⟩
    · rw [overlay, hthere]
      show (((buffer[position]).disjointUnion slot).mapError _ >>= fun both =>
        overlay origin (position + 1) incoming (buffer.set position both)) = .ok merged
      rw [hunion]
      exact hmerged
    · rw [hlength, List.length_set]
    · rw [hcontent, hset, operationsFrom_cons]
      by_cases hx : x = position
      · have hnil : operationsFrom (position + 1) incoming x = [] := if_neg (by omega)
        rw [if_pos hx, if_pos hx, hnil, List.append_nil, hops, hx, operationsAt_of_getElem? hthere]
      · rw [if_neg hx, if_neg hx]

/-! ### The invariant -/

/-- A schedule slides in when it can be written where it comes to lie. -/
theorem push_eq_ok {b : TetrisBuffer ω} {align : Alignment} {incoming slots : List (Slot ω)}
    {slide position : Nat} (hslide : slideBound b.window incoming align = slide)
    (hposition : b.offset + b.length - slide = position)
    (h : overlay (min b.offset position) position incoming b.slots = .ok slots) :
    b.push align incoming = .ok ⟨slots, min b.offset position,
      max (max b.length incoming.length) (b.length + incoming.length - slide)⟩ := by
  subst hslide hposition
  rw [push, h]
  rfl

/-- Where the window is after a step. -/
theorem window_of_push {b b' : TetrisBuffer ω} {align : Alignment} {incoming : List (Slot ω)}
    {slide : Nat} (h : b.push align incoming = .ok b')
    (hslide : slideBound b.window incoming align = slide) :
    b'.offset = min b.offset (b.offset + b.length - slide) ∧
      b'.length = max (max b.length incoming.length) (b.length + incoming.length - slide) := by
  subst hslide
  obtain ⟨slots, -, h⟩ := bind_eq_ok_iff.1 h
  cases h
  exact ⟨rfl, rfl⟩

theorem pushAll_cons {b b' : TetrisBuffer ω} {align : Alignment} {incoming : List (Slot ω)}
    {rest : List (List (Slot ω))} (h : b.push align incoming = .ok b') :
    b.pushAll align (incoming :: rest) = b'.pushAll align rest := by
  rw [pushAll, h]
  rfl

/-- The buffer holds the schedules, each from its own offset, and within the window. There are
`room` slots or more on either side of the window. -/
structure Holds (b : TetrisBuffer ω) (placed : List (Nat × List (Slot ω))) (room : Nat) : Prop where
  sound : ∀ slot ∈ b.slots, slot.Sound
  content : ∀ x, operationsAt b.slots x = stacked placed x
  inside : ∀ e ∈ placed, b.offset ≤ e.1 ∧ e.1 + e.2.length ≤ b.offset + b.length
  before : room ≤ b.offset
  behind : b.offset + b.length + room ≤ b.slots.length
  ordered : placed.Pairwise InOrder
  length_le : b.length ≤ (placed.flatMap Prod.snd).length

/-- The slots of the window are all there, and nothing that is subtracted when the next schedule
slides in is more than what it is subtracted from. -/
structure InBounds (b : TetrisBuffer ω) (align : Alignment) (later : List (List (Slot ω))) :
    Prop where
  window : b.offset + b.length ≤ b.slots.length
  position : ∀ incoming ∈ later.head?, slideBound b.window incoming align ≤ b.offset + b.length
  length : ∀ incoming ∈ later.head?,
    slideBound b.window incoming align ≤ b.length + incoming.length

theorem holds_ofSlots {slots : List (Slot ω)} (h : ∀ slot ∈ slots, slot.Sound) (pad : Nat) :
    (ofSlots slots pad).Holds [(pad, slots)] pad where
  sound := sound_padded h pad pad
  content x := by
    rw [stacked, List.flatMap_singleton]
    exact operationsAt_padded pad pad slots x
  inside e he := by
    rw [List.mem_singleton.1 he]
    exact ⟨Nat.le_refl _, Nat.le_refl _⟩
  before := Nat.le_refl pad
  behind := by
    simp only [ofSlots, List.length_append, List.length_replicate]
    omega
  ordered := List.pairwise_singleton _ _
  length_le := by simp [ofSlots]

namespace Holds

variable {b : TetrisBuffer ω} {placed : List (Nat × List (Slot ω))} {room : Nat}

theorem fits (h : b.Holds placed room) : b.offset + b.length ≤ b.slots.length :=
  Nat.le_trans (Nat.le_add_right _ room) h.behind

theorem inBounds {later : List (List (Slot ω))} (h : b.Holds placed later.flatten.length)
    (align : Alignment) : b.InBounds align later := by
  have hbefore := h.before
  have hslide : ∀ incoming ∈ later.head?, slideBound b.window incoming align
      ≤ max b.length incoming.length ∧ incoming.length ≤ b.offset := by
    intro incoming hhead
    obtain ⟨rest, rfl⟩ := List.head?_eq_some_iff.1 hhead
    rw [List.flatten_cons, List.length_append] at hbefore
    refine ⟨?_, by omega⟩
    rw [← length_window h.fits]
    exact slideBound_le_max b.window incoming align
  refine ⟨h.fits, fun incoming hhead => ?_, fun incoming hhead => ?_⟩
  · have := hslide incoming hhead
    omega
  · have := hslide incoming hhead
    omega

/-- The schedule comes to lie after every use of its resources. -/
theorem inOrder_slide (h : b.Holds placed room) (incoming : List (Slot ω)) (align : Alignment)
    {e : Nat × List (Slot ω)} (he : e ∈ placed) :
    InOrder e (b.offset + b.length - slideBound b.window incoming align, incoming) := by
  intro i j a ha c hc hshare
  have hinside := h.inside e he
  have hi := lt_length_of_mem_operationsAt ha
  have hwindow : a ∈ operationsAt b.window (e.1 + i - b.offset) := by
    rw [operationsAt_window, if_pos (by omega), h.content]
    exact mem_stacked.2 ⟨e, he, i, by omega, ha⟩
  have hlt : slideBound b.window incoming align + (e.1 + i - b.offset) < b.window.length + j :=
    slideBound_add_lt align hwindow hc hshare
  rw [length_window h.fits] at hlt
  show e.1 + i < b.offset + b.length - slideBound b.window incoming align + j
  omega

/-- Where a schedule keeps the order, no operation on one of its resources is in its way. -/
theorem free_of_inOrder {incoming : List (Slot ω)} {position : Nat} (h : b.Holds placed room)
    (horder : ∀ e ∈ placed, InOrder e (position, incoming)) (j : Nat) :
    ∀ a ∈ operationsAt b.slots (position + j), ∀ c ∈ operationsAt incoming j,
      ¬SharesResource a c := by
  intro a ha c hc hshare
  rw [h.content] at ha
  obtain ⟨e, he, i, hx, hai⟩ := mem_stacked.1 ha
  have hlt : e.1 + i < position + j := horder e he i j a hai c hc hshare
  omega

/-- A schedule slides in, and takes no more than its own length from the room on either side. -/
theorem push {incoming : List (Slot ω)} (h : b.Holds placed (incoming.length + room))
    (align : Alignment) (hin : ∀ slot ∈ incoming, slot.Sound) {slide position : Nat}
    (hslide : slideBound b.window incoming align = slide)
    (hposition : b.offset + b.length - slide = position) :
    ∃ b', b.push align incoming = .ok b' ∧ b'.Holds (placed ++ [(position, incoming)]) room ∧
      b'.offset = min b.offset position ∧
      b'.length = max (max b.length incoming.length) (b.length + incoming.length - slide) := by
  have hmax := slideBound_le_max b.window incoming align
  rw [length_window h.fits, hslide] at hmax
  have horder : ∀ e ∈ placed, InOrder e (position, incoming) := by
    intro e he
    rw [← hposition, ← hslide]
    exact h.inOrder_slide incoming align he
  have hbefore := h.before
  have hbehind := h.behind
  obtain ⟨slots, hslots, hlength, hsound, hcontent⟩ :=
    overlay_eq_ok (min b.offset position) h.sound hin (by omega) (h.free_of_inOrder horder)
  refine ⟨_, push_eq_ok hslide hposition hslots, ?_, rfl, rfl⟩
  exact {
    sound := hsound
    content := fun x => by rw [stacked_concat, ← h.content, hcontent]
    inside := fun e he => by
      rcases List.mem_append.1 he with he | he
      · have hinside := h.inside e he
        constructor <;> dsimp only <;> omega
      · rw [List.mem_singleton.1 he]
        constructor <;> dsimp only <;> omega
    before := by dsimp only; omega
    behind := by dsimp only; omega
    ordered := List.pairwise_append.2 ⟨h.ordered, List.pairwise_singleton _ _, fun e he f hf => by
      rw [List.mem_singleton.1 hf]
      exact horder e he⟩
    length_le := by
      have hle := h.length_le
      rw [List.flatMap_append, List.flatMap_singleton, List.length_append]
      dsimp only
      omega }

/-- All schedules slide in, when the room is enough for them together. What each of them keeps is kept
to the end. -/
theorem pushAll_keeping {rest : List (List (Slot ω))} (align : Alignment)
    {P : TetrisBuffer ω → List (Nat × List (Slot ω)) → Prop}
    (hstep : ∀ {b b' : TetrisBuffer ω} {placed : List (Nat × List (Slot ω))}
      {incoming : List (Slot ω)} {room : Nat}, incoming ∈ rest →
      b.Holds placed (incoming.length + room) → b.push align incoming = .ok b' → P b placed →
      P b' (placed ++ [(b.offset + b.length - slideBound b.window incoming align, incoming)]))
    (hin : ∀ slots ∈ rest, ∀ slot ∈ slots, slot.Sound) :
    ∀ {b : TetrisBuffer ω} {placed : List (Nat × List (Slot ω))},
      b.Holds placed (rest.flatten.length + room) → P b placed →
      ∃ b' placed', b.pushAll align rest = .ok b' ∧ b'.Holds placed' room ∧ P b' placed' ∧
        placed'.map Prod.snd = placed.map Prod.snd ++ rest := by
  induction rest with
  | nil =>
    intro b placed h hP
    refine ⟨b, placed, rfl, ?_, hP, (List.append_nil _).symm⟩
    rwa [List.flatten_nil, List.length_nil, Nat.zero_add] at h
  | cons incoming rest ih =>
    intro b placed h hP
    obtain ⟨hhead, hrest⟩ := List.forall_mem_cons.1 hin
    rw [List.flatten_cons, List.length_append, Nat.add_assoc] at h
    obtain ⟨mid, hpush, hmid, -, -⟩ := h.push align hhead rfl rfl
    obtain ⟨b', placed', hall, hholds, hkept, hsnd⟩ :=
      ih (fun hlater => hstep (List.mem_cons_of_mem _ hlater)) hrest hmid
        (hstep List.mem_cons_self h hpush hP)
    refine ⟨b', placed', (pushAll_cons hpush).trans hall, hholds, hkept, ?_⟩
    rw [hsnd, List.map_append, List.append_assoc]
    rfl

theorem pushAll {rest : List (List (Slot ω))} (align : Alignment)
    (hin : ∀ slots ∈ rest, ∀ slot ∈ slots, slot.Sound)
    (h : b.Holds placed (rest.flatten.length + room)) :
    ∃ b' placed', b.pushAll align rest = .ok b' ∧ b'.Holds placed' room ∧
      placed'.map Prod.snd = placed.map Prod.snd ++ rest := by
  obtain ⟨b', placed', hall, hholds, -, hsnd⟩ :=
    pushAll_keeping align (P := fun _ _ => True) (fun _ _ _ _ => trivial) hin h trivial
  exact ⟨b', placed', hall, hholds, hsnd⟩

end Holds

end TetrisBuffer

/-! ### The concatenation -/

/-- The slots `merged` are the schedules on top of each other, each from an offset of its own. -/
structure Rigid [Operation ω] (schedules : List (List (Slot ω)))
    (placed : List (Nat × List (Slot ω))) (merged : List (Slot ω)) : Prop where
  /-- Every schedule has an offset. -/
  schedules_eq : placed.map Prod.snd = schedules
  /-- A slot holds what the schedules hold there, in the order of the schedules. -/
  content : ∀ x, operationsAt merged x = stacked placed x
  /-- No schedule reaches beyond the end. -/
  inside : ∀ e ∈ placed, e.1 + e.2.length ≤ merged.length
  /-- The uses of a resource by different schedules are in the order of the schedules. -/
  ordered : placed.Pairwise InOrder
  length_ge : ∀ slots ∈ schedules, slots.length ≤ merged.length
  length_le : merged.length ≤ schedules.flatten.length
  sound : ∀ slot ∈ merged, slot.Sound

variable [Operation ω]

/-- The window of a buffer that holds schedules, with offsets counted from its first slot. -/
theorem TetrisBuffer.Holds.rigid {b : TetrisBuffer ω} {placed : List (Nat × List (Slot ω))}
    {room : Nat} (h : b.Holds placed room) :
    Rigid (placed.map Prod.snd) (placed.map fun e => (e.1 - b.offset, e.2)) b.window where
  schedules_eq := by rw [List.map_map]; rfl
  content x := by
    rw [stacked_map_sub fun e he => (h.inside e he).1, operationsAt_window, h.content]
    split
    · rfl
    · rename_i hx
      refine (List.eq_nil_iff_forall_not_mem.2 fun op hop => ?_).symm
      obtain ⟨e, he, i, hi, hopi⟩ := mem_stacked.1 hop
      have hlt := lt_length_of_mem_operationsAt hopi
      have hinside := h.inside e he
      omega
  inside e he := by
    obtain ⟨f, hf, rfl⟩ := List.mem_map.1 he
    have hinside := h.inside f hf
    rw [length_window h.fits]
    dsimp only
    omega
  ordered := by
    rw [List.pairwise_map]
    refine h.ordered.imp_of_mem fun {e f} he hf horder i j a ha c hc hshare => ?_
    have hlt := horder i j a ha c hc hshare
    have hinside := h.inside e he
    show e.1 - b.offset + i < f.1 - b.offset + j
    omega
  length_ge slots hslots := by
    obtain ⟨e, he, rfl⟩ := List.mem_map.1 hslots
    have hinside := h.inside e he
    rw [length_window h.fits]
    omega
  length_le := by
    rw [length_window h.fits, ← List.flatMap_def]
    exact h.length_le
  sound slot hslot := h.sound slot (List.mem_of_mem_drop (List.mem_of_mem_take hslot))

/-- Schedules with sound slots can be concatenated: nothing collides and nothing is out of bounds, a
schedule keeps its shape, and uses of a resource keep the order of the schedules. -/
theorem tetrisConcat_rigid (schedules : List (List (Slot ω))) (align : Alignment)
    (hsound : ∀ slots ∈ schedules, ∀ slot ∈ slots, slot.Sound) :
    (∃ merged placed, tetrisConcat schedules align = .ok merged ∧
      Rigid schedules placed merged) ∧
    ∀ first done later, schedules = first :: (done ++ later) →
      ∃ b, (TetrisBuffer.ofSlots first (done ++ later).flatten.length).pushAll align done = .ok b ∧
        b.InBounds align later := by
  constructor
  · cases schedules with
    | nil =>
      refine ⟨[], [], rfl, rfl, fun x => rfl, ?_, List.Pairwise.nil, ?_, Nat.le_refl _, ?_⟩
      all_goals exact fun _ h => nomatch h
    | cons first rest =>
      obtain ⟨hfirst, hrest⟩ := List.forall_mem_cons.1 hsound
      have hstart : (TetrisBuffer.ofSlots first rest.flatten.length).Holds _
          (rest.flatten.length + 0) := TetrisBuffer.holds_ofSlots hfirst _
      obtain ⟨b, placed, hall, hholds, hsnd⟩ := hstart.pushAll align hrest
      have hrigid := hholds.rigid
      rw [hsnd] at hrigid
      refine ⟨b.window, _, ?_, hrigid⟩
      rw [tetrisConcat, hall]
      rfl
  · intro first done later heq
    subst heq
    obtain ⟨hfirst, hrest⟩ := List.forall_mem_cons.1 hsound
    have hstart := TetrisBuffer.holds_ofSlots hfirst (done ++ later).flatten.length
    rw [List.flatten_append, List.length_append] at hstart
    obtain ⟨b, placed, hall, hholds, -⟩ :=
      hstart.pushAll align fun slots hs => hrest slots (List.mem_append_left _ hs)
    refine ⟨b, ?_, hholds.inBounds align⟩
    rw [List.flatten_append, List.length_append]
    exact hall

/-- A schedule that is aligned by its end and reaches past the start of the one before it. -/
theorem tetrisConcat_rigid_past_start :
    let a : Instruction := { name := "a", resources := [.line 0] }
    let b : Instruction := { name := "b", resources := [.line 1] }
    let slotA : Slot Instruction := ⟨[a], SortedMap.insert ∅ (.line 0) 0⟩
    let slotB : Slot Instruction := ⟨[b], SortedMap.insert ∅ (.line 1) 0⟩
    let schedules := [[slotA], [slotB, slotB, slotA]]
    (∀ slots ∈ schedules, ∀ slot ∈ slots, slot.Sound) ∧
    (∃ merged placed, tetrisConcat schedules .right = .ok merged ∧ Rigid schedules placed merged) ∧
    ∀ first done later, schedules = first :: (done ++ later) →
      ∃ b, (TetrisBuffer.ofSlots first (done ++ later).flatten.length).pushAll .right done = .ok b ∧
        b.InBounds .right later := by
  intro a b slotA slotB schedules
  have hA : slotA.Sound := Slot.Sound.ofOperations (rfl : Slot.ofOperations [a] = .ok slotA)
  have hB : slotB.Sound := Slot.Sound.ofOperations (rfl : Slot.ofOperations [b] = .ok slotB)
  have hsound : ∀ slots ∈ schedules, ∀ slot ∈ slots, slot.Sound := by
    show ∀ slots ∈ [[slotA], [slotB, slotB, slotA]], ∀ slot ∈ slots, slot.Sound
    simp [hA, hB]
  exact ⟨hsound, tetrisConcat_rigid schedules .right hsound⟩

end Timetable
