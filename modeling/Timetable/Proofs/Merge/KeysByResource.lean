import Timetable.Proofs.Merge.Mirror
import Timetable.Proofs.Slot.Parts
import Mathlib.Logic.Relation

/-!
# Concatenation and the order on keys

Where a schedule comes to lie when it slides in is settled by three things alone: by the start and by
the end of what is there, as far as the alignment looks at them, and by the resources that it has in
common with the schedules before it. Keys are not among them. So a reader comes to lie behind its
writer in an earlier schedule when one of the three keeps it there; otherwise it slides beside its
writer or in front of it. Slots that are tied together, by the shape of a schedule or by a resource,
stay in order.

* `HeldBehind`: what keeps a slot of the incoming schedule behind a given slot.
* `TetrisBuffer.Holds.lt_iff_heldBehind`: nothing else does.
* `TetrisBuffer.Packs`, `TetrisBuffer.Packs.push`: the buffer is packed, and stays so.
* `Packed`: the result is packed.
* `KeysKept`: the order on keys, as it ought to be.
* `SlotsTied`, `KeySlotsTied`: slots tied together, and `SlotsTied.standsIn_lt`.
* `exists_packed`, `tetrisConcat_keys`: the result, and what it leaves of the order.
* `tetrisConcat_keys_slid`: a reader beside its writer or in front of it.
-/

namespace Timetable

variable {ω : Type} [Operation ω]

/-! ### What keeps a schedule back -/

/-- When a schedule of these slots slides into those of `earlier`, something keeps its slot `q` behind
the slot `x`. -/
inductive HeldBehind (align : Alignment) (earlier : List (Nat × List (Slot ω)))
    (slots : List (Slot ω)) (x q : Nat) : Prop
  /-- It must not begin before what is there. -/
  | byStart (halign : align ≠ .right) (h : ∀ e ∈ earlier, x < e.1 + q)
  /-- It must not end before what is there. -/
  | byEnd (halign : align ≠ .left) {e : Nat × List (Slot ω)} (he : e ∈ earlier)
    (h : x + slots.length < e.1 + e.2.length + q)
  /-- It must use a resource behind an earlier use. -/
  | byResource {e : Nat × List (Slot ω)} (he : e ∈ earlier) {i j : Nat} {a b : ω}
    (ha : a ∈ operationsAt e.2 i) (hb : b ∈ operationsAt slots j) (hshare : SharesResource a b)
    (h : x + j ≤ e.1 + i + q)

omit [Operation ω] in
theorem le_slideLimit_iff {accumulated incoming : List (Slot ω)} {align : Alignment} {d : Nat} :
    d ≤ slideLimit accumulated incoming align ↔
      (align ≠ .right → d ≤ accumulated.length) ∧ (align ≠ .left → d ≤ incoming.length) := by
  cases align <;> simp [slideLimit]

namespace TetrisBuffer

variable {b : TetrisBuffer ω} {align : Alignment} {placed : List (Nat × List (Slot ω))} {room : Nat}

/-- The window begins where some schedule begins and ends where some schedule ends. -/
structure Fitted (b : TetrisBuffer ω) (placed : List (Nat × List (Slot ω))) : Prop where
  starts : ∃ e ∈ placed, e.1 = b.offset
  ends : ∃ e ∈ placed, e.1 + e.2.length = b.offset + b.length

/-- The window of the buffer is fitted to its schedules. A slot of any schedule but the first is behind
a given slot exactly when something that was there before it keeps it behind. -/
structure Packs (align : Alignment) (b : TetrisBuffer ω) (placed : List (Nat × List (Slot ω))) :
    Prop extends Fitted b placed where
  held : ∀ earlier f later, placed = earlier ++ f :: later → earlier ≠ [] →
    ∀ x q, x < f.1 + q ↔ HeldBehind align earlier f.2 x q

/-- A schedule that slides in comes to lie as far back as it is not held. -/
theorem Holds.lt_iff_heldBehind {incoming : List (Slot ω)}
    (h : b.Holds placed (incoming.length + room)) (hfit : b.Fitted placed) {slide : Nat}
    (hslide : slideBound b.window incoming align = slide) (x q : Nat) :
    x < b.offset + b.length - slide + q ↔ HeldBehind align placed incoming x q := by
  subst hslide
  have hwindow := length_window h.fits
  have hbefore := h.before
  have hmax := slideBound_le_max b.window incoming align
  obtain ⟨hlimit, -⟩ :=
    le_slideBound_iff.1 (Nat.le_refl (slideBound b.window incoming align))
  obtain ⟨hstart, hend⟩ := le_slideLimit_iff.1 hlimit
  constructor
  · intro hlt
    by_contra hfree
    -- Otherwise it could slide on until its slot `q` is in the slot `x`.
    have hfarther : b.offset + b.length + q - x ≤ slideBound b.window incoming align := by
      refine le_slideBound_iff.2 ⟨le_slideLimit_iff.2 ⟨fun halign => ?_, fun halign => ?_⟩, ?_⟩
      · have hsome : ¬∀ e ∈ placed, x < e.1 + q := fun hall => hfree (.byStart halign hall)
        push Not at hsome
        obtain ⟨e, he, hle⟩ := hsome
        have hinside := h.inside e he
        omega
      · obtain ⟨e, he, hends⟩ := hfit.ends
        have hbehind : ¬x + incoming.length < e.1 + e.2.length + q :=
          fun hlt => hfree (.byEnd halign he hlt)
        omega
      · intro i j a ha c hc hshare
        have hi := lt_length_of_mem_operationsAt ha
        rw [operationsAt_window, if_pos (by omega), h.content] at ha
        obtain ⟨e, he, k, hk, hak⟩ := mem_stacked.1 ha
        have hbehind : ¬x + j ≤ e.1 + k + q :=
          fun hle => hfree (.byResource he hak hc hshare hle)
        omega
    omega
  · intro hheld
    cases hheld with
    | byStart halign hall =>
      obtain ⟨e, he, hstarts⟩ := hfit.starts
      have hlt := hall e he
      have hle := hstart halign
      omega
    | byEnd halign he hlt =>
      have hinside := h.inside _ he
      have hle := hend halign
      omega
    | byResource he ha hb hshare hle =>
      have hlt := h.inOrder_slide incoming align he _ _ _ ha _ hb hshare
      dsimp only at hlt
      omega

theorem packs_ofSlots (slots : List (Slot ω)) (pad : Nat) :
    (ofSlots slots pad).Packs align [(pad, slots)] where
  starts := ⟨_, List.mem_singleton_self _, rfl⟩
  ends := ⟨_, List.mem_singleton_self _, rfl⟩
  held earlier f later hsplit hne := by
    cases earlier with
    | nil => exact absurd rfl hne
    | cons e earlier => simp at hsplit

/-- The schedule that slides in is put where it is held, and the window grows no further than to its
ends. -/
theorem Packs.push {b' : TetrisBuffer ω} {incoming : List (Slot ω)} (hpacks : b.Packs align placed)
    (h : b.Holds placed (incoming.length + room)) (hpush : b.push align incoming = .ok b') :
    b'.Packs align
      (placed ++ [(b.offset + b.length - slideBound b.window incoming align, incoming)]) := by
  generalize hslide : slideBound b.window incoming align = slide
  obtain ⟨hoffset, hlength⟩ := window_of_push hpush hslide
  have hmax := slideBound_le_max b.window incoming align
  rw [length_window h.fits, hslide] at hmax
  have hbefore := h.before
  refine ⟨⟨?_, ?_⟩, fun earlier f later hsplit hne => ?_⟩
  · obtain ⟨e, he, hstarts⟩ := hpacks.starts
    by_cases hold : slide ≤ b.length
    · exact ⟨e, List.mem_append_left _ he, by omega⟩
    · exact ⟨_, List.mem_append_right _ (List.mem_singleton_self _), by dsimp only; omega⟩
  · obtain ⟨e, he, hends⟩ := hpacks.ends
    by_cases hold : incoming.length ≤ slide
    · exact ⟨e, List.mem_append_left _ he, by omega⟩
    · exact ⟨_, List.mem_append_right _ (List.mem_singleton_self _), by dsimp only; omega⟩
  · rcases split_concat hsplit with ⟨rfl, rfl⟩ | ⟨rest, hrest⟩
    · exact h.lt_iff_heldBehind hpacks.toFitted hslide
    · exact hpacks.held earlier f rest hrest hne

end TetrisBuffer

/-! ### The result -/

/-- The schedules begin at the first slot of the result and end at the last one. A slot of any schedule
but the first is behind a given slot exactly when something in the schedules before it keeps it
behind. -/
structure Packed (align : Alignment) (placed : List (Nat × List (Slot ω)))
    (merged : List (Slot ω)) : Prop where
  starts : ∃ e ∈ placed, e.1 = 0
  ends : ∃ e ∈ placed, e.1 + e.2.length = merged.length
  held : ∀ earlier f later, placed = earlier ++ f :: later → earlier ≠ [] →
    ∀ x q, x < f.1 + q ↔ HeldBehind align earlier f.2 x q

/-- What is held stays so when all slots are counted from another origin. -/
theorem heldBehind_sub_iff {align : Alignment} {earlier : List (Nat × List (Slot ω))}
    {slots : List (Slot ω)} {origin x q : Nat} (h : ∀ e ∈ earlier, origin ≤ e.1) :
    HeldBehind align (earlier.map fun e => (e.1 - origin, e.2)) slots x q ↔
      HeldBehind align earlier slots (origin + x) q := by
  constructor
  · intro hheld
    cases hheld with
    | byStart halign hall =>
      refine .byStart halign fun e he => ?_
      have hlt := hall _ (List.mem_map_of_mem he)
      have hle := h e he
      dsimp only at hlt
      omega
    | byEnd halign hmem hlt =>
      obtain ⟨e, he, rfl⟩ := List.mem_map.1 hmem
      have horigin := h e he
      dsimp only at hlt
      exact .byEnd halign he (by omega)
    | byResource hmem ha hb hshare hle =>
      obtain ⟨e, he, rfl⟩ := List.mem_map.1 hmem
      have horigin := h e he
      dsimp only at ha hle
      exact .byResource he ha hb hshare (by omega)
  · intro hheld
    cases hheld with
    | byStart halign hall =>
      refine .byStart halign fun e hmem => ?_
      obtain ⟨e, he, rfl⟩ := List.mem_map.1 hmem
      have hlt := hall e he
      have hle := h e he
      dsimp only
      omega
    | byEnd halign he hlt =>
      have hle := h _ he
      exact .byEnd halign (List.mem_map_of_mem he) (by dsimp only; omega)
    | byResource he ha hb hshare hle =>
      have hle := h _ he
      exact .byResource (List.mem_map_of_mem he) ha hb hshare (by dsimp only; omega)

/-- The window of a packed buffer, with the slots counted from its first one. -/
theorem TetrisBuffer.Packs.packed {b : TetrisBuffer ω} {align : Alignment}
    {placed : List (Nat × List (Slot ω))} {room : Nat} (hpacks : b.Packs align placed)
    (h : b.Holds placed room) :
    Packed align (placed.map fun e => (e.1 - b.offset, e.2)) b.window where
  starts := by
    obtain ⟨e, he, hstarts⟩ := hpacks.starts
    exact ⟨_, List.mem_map_of_mem he, by dsimp only; omega⟩
  ends := by
    obtain ⟨e, he, hends⟩ := hpacks.ends
    have hinside := h.inside e he
    rw [length_window h.fits]
    exact ⟨_, List.mem_map_of_mem he, by dsimp only; omega⟩
  held earlier f later hsplit hne x q := by
    obtain ⟨before, rest, rfl, rfl, hrest⟩ := List.map_eq_append_iff.1 hsplit
    obtain ⟨e, behind, rfl, rfl, -⟩ := List.map_eq_cons_iff.1 hrest
    have hinside := h.inside e (by simp)
    have hbefore : ∀ d ∈ before, b.offset ≤ d.1 := fun d hd =>
      (h.inside d (List.mem_append_left _ hd)).1
    have hheld := hpacks.held before e behind rfl (by simpa using hne) (b.offset + x) q
    rw [heldBehind_sub_iff hbefore, ← hheld]
    dsimp only
    omega

/-- Schedules with sound slots can be concatenated, and the result is packed. -/
theorem exists_packed {schedules : List (List (Slot ω))} (align : Alignment)
    (hsound : ∀ slots ∈ schedules, ∀ slot ∈ slots, slot.Sound) :
    ∃ merged placed, tetrisConcat schedules align = .ok merged ∧ Rigid schedules placed merged ∧
      (schedules ≠ [] → Packed align placed merged) := by
  cases schedules with
  | nil =>
    obtain ⟨merged, placed, hmerged, hrigid⟩ := (tetrisConcat_rigid [] align hsound).1
    exact ⟨merged, placed, hmerged, hrigid, fun h => absurd rfl h⟩
  | cons first rest =>
    obtain ⟨hfirst, hrest⟩ := List.forall_mem_cons.1 hsound
    have hstart : (TetrisBuffer.ofSlots first rest.flatten.length).Holds _
        (rest.flatten.length + 0) := TetrisBuffer.holds_ofSlots hfirst _
    obtain ⟨b, placed, hall, hholds, hpacks, hsnd⟩ := TetrisBuffer.Holds.pushAll_keeping align
      (fun _ h hpush hpacks => TetrisBuffer.Packs.push hpacks h hpush) hrest hstart
      (TetrisBuffer.packs_ofSlots first _)
    have hrigid := hholds.rigid
    rw [hsnd] at hrigid
    refine ⟨b.window, _, ?_, hrigid, fun _ => hpacks.packed hholds⟩
    rw [tetrisConcat, hall]
    rfl

/-! ### Slots tied together -/

/-- The operations in slot `u.2` of the schedule `u.1`. -/
def operationsOf (schedules : List (List (Slot ω))) (u : Nat × Nat) : List ω :=
  operationsAt (schedules[u.1]?.getD []) u.2

/-- The slot in which slot `u.2` of the schedule `u.1` comes to lie. -/
def standsIn (placed : List (Nat × List (Slot ω))) (u : Nat × Nat) : Nat :=
  (placed[u.1]?.map Prod.fst).getD 0 + u.2

/-- A slot is put before a later slot of its schedule, and before a slot of a later schedule that uses
one of its resources. -/
inductive PutBefore (schedules : List (List (Slot ω))) : Nat × Nat → Nat × Nat → Prop
  | within {n p q : Nat} (h : p < q) : PutBefore schedules (n, p) (n, q)
  | across {u v : Nat × Nat} {a b : ω} (h : u.1 < v.1) (ha : a ∈ operationsOf schedules u)
    (hb : b ∈ operationsOf schedules v) (hshare : SharesResource a b) : PutBefore schedules u v

/-- From the one slot one comes to the other by slots that are each put before the next one. -/
def SlotsTied (schedules : List (List (Slot ω))) : Nat × Nat → Nat × Nat → Prop :=
  Relation.TransGen (PutBefore schedules)

/-- All slots of different schedules that share a key are tied together. -/
def KeySlotsTied (schedules : List (List (Slot ω))) : Prop :=
  ∀ u v : Nat × Nat, u.1 < v.1 → ∀ a ∈ operationsOf schedules u, ∀ b ∈ operationsOf schedules v,
    SharesKey a b → SlotsTied schedules u v

/-- Of two operations of different schedules that share a key, the one of the later schedule is in a
later slot. -/
def KeysKept (placed : List (Nat × List (Slot ω))) : Prop :=
  placed.Pairwise fun e f => ∀ i j, ∀ a ∈ operationsAt e.2 i, ∀ b ∈ operationsAt f.2 j,
    SharesKey a b → e.1 + i < f.1 + j

omit [Operation ω] in
theorem operationsOf_eq {placed : List (Nat × List (Slot ω))} {n : Nat} (h : n < placed.length)
    (p : Nat) : operationsOf (placed.map Prod.snd) (n, p) = operationsAt placed[n].2 p := by
  rw [operationsOf, List.getElem?_map, List.getElem?_eq_getElem h]
  rfl

omit [Operation ω] in
theorem standsIn_eq {placed : List (Nat × List (Slot ω))} {n : Nat} (h : n < placed.length)
    (p : Nat) : standsIn placed (n, p) = placed[n].1 + p := by
  rw [standsIn, List.getElem?_eq_getElem h]
  rfl

omit [Operation ω] in
theorem lt_length_of_mem_operationsOf {placed : List (Nat × List (Slot ω))} {u : Nat × Nat} {a : ω}
    (h : a ∈ operationsOf (placed.map Prod.snd) u) : u.1 < placed.length := by
  by_contra hge
  rw [operationsOf, List.getElem?_eq_none (by rw [List.length_map]; omega)] at h
  cases h

section Order

variable {placed : List (Nat × List (Slot ω))} {u v : Nat × Nat} (h : placed.Pairwise InOrder)
include h

theorem PutBefore.standsIn_lt (hput : PutBefore (placed.map Prod.snd) u v) :
    standsIn placed u < standsIn placed v := by
  cases hput with
  | within hlt => exact Nat.add_lt_add_left hlt _
  | across hlt ha hb hshare =>
    have hu := lt_length_of_mem_operationsOf ha
    have hv := lt_length_of_mem_operationsOf hb
    rw [operationsOf_eq hu] at ha
    rw [operationsOf_eq hv] at hb
    rw [standsIn_eq hu, standsIn_eq hv]
    exact List.pairwise_iff_getElem.1 h u.1 v.1 hu hv hlt u.2 v.2 _ ha _ hb hshare

/-- Where schedules are in order on resources, slots that are tied together are in order. -/
theorem SlotsTied.standsIn_lt (htied : SlotsTied (placed.map Prod.snd) u v) :
    standsIn placed u < standsIn placed v := by
  induction htied with
  | single hput => exact hput.standsIn_lt h
  | tail _ hput ih => exact Nat.lt_trans ih (hput.standsIn_lt h)

theorem KeySlotsTied.keysKept (hkeys : KeySlotsTied (placed.map Prod.snd)) : KeysKept placed := by
  refine List.pairwise_iff_getElem.2 fun m n hm hn hmn i j a ha b hb hkey => ?_
  rw [← operationsOf_eq hm] at ha
  rw [← operationsOf_eq hn] at hb
  have hlt := (hkeys (m, i) (n, j) hmn a ha b hb hkey).standsIn_lt h
  rwa [standsIn_eq hm, standsIn_eq hn] at hlt

end Order

/-- **Concatenation keeps the order on resources, not that on keys.** Schedules with sound slots can be
concatenated. A slot of a schedule that slides in comes to lie behind a given slot exactly when the
alignment or a resource holds it there, whatever keys the two slots share. Where all slots of different
schedules that share a key are tied together, by the shape of the schedules and by resources, the
operations that share a key are in order. -/
theorem tetrisConcat_keys {schedules : List (List (Slot ω))} (align : Alignment)
    (hsound : ∀ slots ∈ schedules, ∀ slot ∈ slots, slot.Sound) :
    ∃ merged placed, tetrisConcat schedules align = .ok merged ∧ Rigid schedules placed merged ∧
      (schedules ≠ [] → Packed align placed merged) ∧
      (KeySlotsTied schedules → KeysKept placed) := by
  obtain ⟨merged, placed, hmerged, hrigid, hpacked⟩ := exists_packed align hsound
  refine ⟨merged, placed, hmerged, hrigid, hpacked, fun htied => ?_⟩
  rw [← hrigid.schedules_eq] at htied
  exact htied.keysKept hrigid.ordered

/-- A measurement and an instruction that waits for its outcome, in different schedules. In the first
schedule another instruction comes behind the measurement, and it is on the resource of the one that
waits. -/
theorem tetrisConcat_keys_tied :
    let m : Key := ⟨"m", by decide⟩
    let measure : Instruction :=
      { name := "measure", resources := [.line 0], writes := SortedSet.ofList [m] }
    let h : Instruction := { name := "h", resources := [.line 1] }
    let x : Instruction :=
      { name := "x", resources := [.line 1], reads := SortedSet.ofList [m] }
    let schedules := [[[measure], [h]].map Slot.ofApart, [[x]].map Slot.ofApart]
    (∀ slots ∈ schedules, ∀ slot ∈ slots, slot.Sound) ∧
    ∃ merged placed, tetrisConcat schedules .left = .ok merged ∧ Rigid schedules placed merged ∧
      (schedules ≠ [] → Packed .left placed merged) ∧
      (KeySlotsTied schedules → KeysKept placed) := by
  intro m measure h x schedules
  have hsound : ∀ slots ∈ schedules, ∀ slot ∈ slots, slot.Sound := by
    refine List.forall_mem_cons.2 ⟨?_, List.forall_mem_singleton.2 ?_⟩
    · exact Slot.sound_map_ofApart (by decide)
    · exact Slot.sound_map_ofApart (by decide)
  exact ⟨hsound, tetrisConcat_keys .left hsound⟩

/-- Nothing keeps the instruction behind the measurement it waits for. By the ends it slides into the
same slot, by the starts into the slot in front of it. -/
theorem tetrisConcat_keys_slid :
    let m : Key := ⟨"m", by decide⟩
    let h : Instruction := { name := "h", resources := [.line 2] }
    let measure : Instruction :=
      { name := "measure", resources := [.line 0], writes := SortedSet.ofList [m] }
    let x : Instruction :=
      { name := "x", resources := [.line 1], reads := SortedSet.ofList [m] }
    let first := [[h], [measure]].map Slot.ofApart
    let second := [[x]].map Slot.ofApart
    (∀ slots ∈ [first, second], ∀ slot ∈ slots, slot.Sound) ∧
      ∀ align, ¬∃ merged placed, tetrisConcat [first, second] align = .ok merged ∧
        Rigid [first, second] placed merged ∧ KeysKept placed := by
  intro m h measure x first second
  have hkey : SharesKey measure x := sharesKey_iff.2 (by decide +kernel)
  have hlength : ∀ align, (tetrisConcat [first, second] align).map List.length = .ok 2 := by
    intro align
    cases align <;> decide +kernel
  refine ⟨List.forall_mem_cons.2 ⟨?_, List.forall_mem_singleton.2 ?_⟩, ?_⟩
  · exact Slot.sound_map_ofApart (by decide)
  · exact Slot.sound_map_ofApart (by decide)
  · rintro align ⟨merged, placed, hmerged, hrigid, hkept⟩
    -- The instruction cannot be behind the measurement, because the result has two slots only.
    have htwo := hlength align
    rw [hmerged] at htwo
    have htwo : merged.length = 2 := Except.ok.inj htwo
    obtain ⟨e, rest, rfl, he, hrest⟩ := List.map_eq_cons_iff.1 hrigid.schedules_eq
    obtain ⟨f, rest, rfl, hf, -⟩ := List.map_eq_cons_iff.1 hrest
    have hlt : e.1 + 1 < f.1 + 0 := by
      refine List.rel_of_pairwise_cons hkept List.mem_cons_self 1 0 measure ?_ x ?_ hkey
      · rw [he]
        exact List.mem_singleton_self _
      · rw [hf]
        exact List.mem_singleton_self _
    have hinside := hrigid.inside f (List.mem_cons_of_mem _ List.mem_cons_self)
    rw [htwo, hf] at hinside
    have hone : second.length = 1 := rfl
    omega

end Timetable
