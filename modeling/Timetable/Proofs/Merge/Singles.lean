import Timetable.Proofs.Merge.Tetris
import Timetable.Proofs.Schedule.Levels
import Timetable.Proofs.Slot.Parts
import Timetable.Schedule.Partition

/-!
# Concatenating single operations builds their schedule

A list of operations can be made a schedule by earliest building, or by taking each operation as a
schedule of one slot and concatenating them closely from the left. Both search in ways of their own,
but leave a levelled record: an operation that slides in comes to lie behind all that conflicts with
it, and it only stops before the first slot because of an operation in the slot just before. A list
has one levelled record, and slots hold it in one way, so the two make the same schedule.

* `Slot.single`, `Schedule.singles`: the schedules of one slot.
* `TetrisBuffer.HoldsRecord`: the buffer holds the operations of a record, counted from its window.
* `TetrisBuffer.HoldsRecord.exists_support`: what stops an operation that slides in.
* `TetrisBuffer.HoldsRecord.push`: the next operation slides in where it is supported.
* `TetrisBuffer.HoldsRecord.levelled`, `TetrisBuffer.HoldsRecord.arranged`: the record is levelled,
  and the window holds what it says.
* `tetrisAll_singles`: the theorem.
-/

namespace Timetable

variable {ω : Type} [Operation ω]

/-! ### Schedules of one operation -/

def Slot.single (op : ω) : Slot ω := ⟨[op], indexBy resources [op]⟩

def Schedule.singles (ops : List ω) : Except Fault (List (Schedule ω)) :=
  ops.mapM fun op => do return ofSlots [← Slot.ofOperations [op]]

theorem Slot.ofOperations_singleton {op : ω} (hnd : (resources op).Nodup) :
    Slot.ofOperations [op] = .ok (single op) ∧ (single op).Sound := by
  have hjoined : (([] ++ [op] : List ω).flatMap resources).Nodup := by simpa using hnd
  obtain ⟨slot, hslot⟩ := Slot.sound_empty.pushAll_eq_ok_iff.2 hjoined
  have hops : slot.operations = [op] := operations_of_pushAll hslot
  have hsound : slot.Sound := Slot.Sound.ofOperations hslot
  have hsingle : (single op).Sound := by
    have hall := hsound.filter fun _ => true
    rwa [Slot.filter, hops] at hall
  refine ⟨?_, hsingle⟩
  rw [← hsound.ext hsingle hops]
  exact hslot

theorem Schedule.singles_eq_ok {ops : List ω} (hnd : ∀ op ∈ ops, (resources op).Nodup) :
    singles ops = .ok (ops.map fun op => ofSlots [Slot.single op]) := by
  induction ops with
  | nil => rfl
  | cons op ops ih =>
    obtain ⟨hop, hnd⟩ := List.forall_mem_cons.1 hnd
    have hrest := ih hnd
    rw [singles] at hrest ⊢
    rw [List.mapM_cons, (Slot.ofOperations_singleton hop).1, hrest]
    rfl

/-! ### Records as schedules -/

/-- Every operation of a record as a schedule of one slot, counted from `origin`. -/
def singled (origin : Nat) (placed : List (Nat × ω)) : List (Nat × List (Slot ω)) :=
  placed.map fun e => (origin + e.1, [Slot.single e.2])

theorem stacked_singled (placed : List (Nat × ω)) (x : Nat) :
    stacked (singled 0 placed) x = landedIn placed x := by
  induction placed with
  | nil => rfl
  | cons e placed ih =>
    have hfirst : operationsFrom (0 + e.1) [Slot.single e.2] x = landedIn [e] x := by
      rw [operationsFrom_cons, Nat.zero_add, landedIn_singleton]
      by_cases hx : x = e.1
      · rw [if_pos hx, if_pos hx.symm]
        rfl
      · rw [if_neg hx, if_neg (Ne.symm hx), operationsFrom]
        split <;> rfl
    show operationsFrom (0 + e.1) [Slot.single e.2] x ++ stacked (singled 0 placed) x = _
    rw [hfirst, ih, ← landedIn_append]
    rfl

/-- Where there are no keys, schedules of single operations that are in order keep the order. -/
theorem keepsOrder_of_inOrder {origin : Nat} {placed : List (Nat × ω)}
    (h : (singled origin placed).Pairwise InOrder)
    (hkeys : ∀ e ∈ placed, (footprint e.2).isEmpty = true) : KeepsOrder placed := by
  refine (List.pairwise_map.1 h).imp_of_mem fun {e f} _ hf horder hconf => ?_
  have hshares := hconf.sharesResource (hkeys f hf)
  have hlt := horder 0 0 e.2 List.mem_cons_self f.2 List.mem_cons_self hshares
  dsimp only at hlt
  omega

/-! ### The buffer -/

namespace TetrisBuffer

/-- The schedules that the buffer holds are the operations of the record. No slot of the window is
empty, and what is not in the first one is supported. -/
structure HoldsRecord (b : TetrisBuffer ω) (held : List (Nat × List (Slot ω)))
    (placed : List (Nat × ω)) : Prop where
  held_eq : held = singled b.offset placed
  supported : Supported placed
  occupied : ∀ x < b.length, ∃ op, (x, op) ∈ placed

theorem holdsRecord_ofSlots (op : ω) (pad : Nat) :
    (ofSlots [Slot.single op] pad).HoldsRecord [(pad, [Slot.single op])] [(0, op)] where
  held_eq := rfl
  supported e he d hd := by
    rw [List.mem_singleton.1 he] at hd
    cases hd
  occupied x hx := by
    obtain rfl : x = 0 := Nat.lt_one_iff.1 hx
    exact ⟨op, List.mem_singleton_self _⟩

namespace HoldsRecord

variable {b b' : TetrisBuffer ω} {held : List (Nat × List (Slot ω))} {placed : List (Nat × ω)}
variable {room : Nat}

theorem arranged (hrecord : b.HoldsRecord held placed) (h : b.Holds held room) :
    Arranged placed b.window where
  sound := h.rigid.sound
  content x := by
    rw [h.rigid.content, hrecord.held_eq, ← stacked_singled, singled, singled, List.map_map]
    simp only [Function.comp_def, Nat.add_sub_cancel_left, Nat.zero_add]
  occupied x hx := hrecord.occupied x (by rwa [length_window h.fits] at hx)

theorem levelled (hrecord : b.HoldsRecord held placed) (h : b.Holds held room)
    (hkeys : ∀ e ∈ placed, (footprint e.2).isEmpty = true) : Levelled placed where
  keepsOrder := keepsOrder_of_inOrder (hrecord.held_eq ▸ h.ordered) hkeys
  supported := hrecord.supported

/-- The operations of the record are those of the schedules. -/
theorem inserted (hrecord : b.HoldsRecord held placed) {ops : List ω}
    (hops : held.map Prod.snd = ops.map fun op => [Slot.single op]) : placed.map Prod.snd = ops := by
  have hinj : Function.Injective fun op : ω => [Slot.single op] := by
    intro op op' heq
    exact List.singleton_inj.1 (congrArg Slot.operations (List.singleton_inj.1 heq))
  apply List.map_injective_iff.2 hinj
  rw [← hops, hrecord.held_eq, singled, List.map_map, List.map_map]
  rfl

/-- What stops an operation that slides in is in the slot just before its own. -/
theorem exists_support (hrecord : b.HoldsRecord held placed) (h : b.Holds held room) {op : ω}
    {d : Nat} (hd : b.length - slideBound b.window [Slot.single op] .left = d + 1) :
    ∃ f ∈ placed, f.1 = d ∧ Conflict f.2 op := by
  have hlength : b.window.length = b.length := length_window h.fits
  have hstopped : slideBound b.window [Slot.single op] .left
      ≠ slideLimit b.window [Slot.single op] .left := by
    show _ ≠ b.window.length
    omega
  obtain ⟨i, j, a, ha, c, hc, hshare, heq⟩ := exists_slideBound_add_eq .left hstopped
  have hj : j < 1 := lt_length_of_mem_operationsAt hc
  obtain rfl : j = 0 := Nat.lt_one_iff.1 hj
  obtain rfl : c = op := List.mem_singleton.1 hc
  have hi : i = d := by omega
  exact ⟨(i, a), (hrecord.arranged h).mem_operationsAt_iff.1 ha, hi, .inl hshare⟩

/-- The next operation slides in, as far as to the first slot or to what supports it. -/
theorem push (hrecord : b.HoldsRecord held placed) (h : b.Holds held room) {op : ω}
    (hpush : b.push .left [Slot.single op] = .ok b') :
    ∃ d, b'.HoldsRecord
      (held ++ [(b.offset + b.length - slideBound b.window [Slot.single op] .left,
        [Slot.single op])]) (placed ++ [(d, op)]) := by
  have hsupport : ∀ {d}, b.length - slideBound b.window [Slot.single op] .left = d + 1 →
      ∃ f ∈ placed, f.1 = d ∧ Conflict f.2 op := hrecord.exists_support h
  have hle : slideBound b.window [Slot.single op] .left ≤ b.window.length :=
    slideBound_le_limit b.window [Slot.single op] .left
  rw [length_window h.fits] at hle
  generalize hslide : slideBound b.window [Slot.single op] .left = slide at hle hsupport ⊢
  have hposition : b.offset + b.length - slide = b.offset + (b.length - slide) := by omega
  obtain ⟨hoffset, hlength⟩ := window_of_push hpush hslide
  rw [hposition, Nat.min_eq_left (Nat.le_add_right _ _)] at hoffset
  rw [List.length_singleton] at hlength
  refine ⟨b.length - slide, ?_, hrecord.supported.concat fun d => hsupport, fun x hx => ?_⟩
  · rw [hoffset, hposition, hrecord.held_eq, singled, singled, List.map_append]
    rfl
  · rcases Nat.lt_or_ge x b.length with hlt | hge
    · obtain ⟨a, ha⟩ := hrecord.occupied x hlt
      exact ⟨a, List.mem_append_left _ ha⟩
    · -- The window has grown, so the operation has not slid at all.
      obtain rfl : x = b.length - slide := by omega
      exact ⟨op, List.mem_append_right _ (List.mem_singleton_self _)⟩

end HoldsRecord

end TetrisBuffer

/-! ### The concatenation -/

/-- Single operations without keys, concatenated from the left, are the slots of the levelled record
of their list. -/
theorem tetrisConcat_single {ops : List ω}
    (h : ∀ op ∈ ops, (resources op).Nodup ∧ (footprint op).isEmpty = true) :
    ∃ merged placed, tetrisConcat (ops.map fun op => [Slot.single op]) .left = .ok merged ∧
      placed.map Prod.snd = ops ∧ Levelled placed ∧ Arranged placed merged := by
  cases ops with
  | nil =>
    refine ⟨[], [], rfl, rfl, ⟨List.Pairwise.nil, ?_⟩, ?_, fun x => rfl, ?_⟩
    all_goals exact fun _ h => nomatch h
  | cons first rest =>
    have hsound : ∀ {op}, op ∈ first :: rest → ∀ slot ∈ [Slot.single op], slot.Sound := by
      intro op hop slot hslot
      rw [List.mem_singleton.1 hslot]
      exact (Slot.ofOperations_singleton (h op hop).1).2
    let later := rest.map fun op => [Slot.single op]
    have hstart : (TetrisBuffer.ofSlots [Slot.single first] later.flatten.length).Holds _
        (later.flatten.length + 0) :=
      TetrisBuffer.holds_ofSlots (hsound List.mem_cons_self) _
    obtain ⟨b, held, hall, hholds, ⟨placed, hrecord⟩, hsnd⟩ :=
      TetrisBuffer.Holds.pushAll_keeping .left (P := fun b held => ∃ placed, b.HoldsRecord held placed)
        (fun hmem hheld hpush ⟨placed, hrecord⟩ => by
          obtain ⟨op, -, rfl⟩ := List.mem_map.1 hmem
          obtain ⟨d, hrecord'⟩ := hrecord.push hheld hpush
          exact ⟨_, hrecord'⟩)
        (List.forall_mem_map.2 fun op hop => hsound (List.mem_cons_of_mem _ hop)) hstart
        ⟨_, TetrisBuffer.holdsRecord_ofSlots first _⟩
    have hops : placed.map Prod.snd = first :: rest := hrecord.inserted hsnd
    have hkeys : ∀ e ∈ placed, (footprint e.2).isEmpty = true := fun e he =>
      (h e.2 (hops ▸ List.mem_map_of_mem he)).2
    refine ⟨b.window, placed, ?_, hops, hrecord.levelled hholds hkeys, hrecord.arranged hholds⟩
    rw [List.map_cons, tetrisConcat, hall]
    rfl

/-- **Concatenating single operations builds their schedule.** Operations without keys, each taken
as a schedule of one slot, are concatenated from the left to just the schedule that is built of
their list, with the same order in each slot. Or none is built, because of an operation that nests
in itself. -/
theorem tetrisAll_singles {ops : List ω}
    (h : ∀ op ∈ ops, (resources op).Nodup ∧ (footprint op).isEmpty = true) :
    ∃ schedules s, Schedule.singles ops = .ok schedules ∧
      Schedule.tetrisAll schedules .left = .ok s ∧
      (Schedule.ofBundle (.ofList ops) .earliest = .ok s ∨ Schedule.RefusesNesting ops) := by
  have hnd : ∀ op ∈ ops, (resources op).Nodup := fun op hop => (h op hop).1
  obtain ⟨merged, placed, hmerged, hops, hlevelled, harranged⟩ := tetrisConcat_single h
  refine ⟨_, .ofSlots merged, Schedule.singles_eq_ok hnd, ?_, ?_⟩
  · rw [Schedule.tetrisAll, List.map_map]
    show (tetrisConcat (ops.map fun op => [Slot.single op]) .left).map Schedule.ofSlots = _
    rw [hmerged]
    rfl
  · rcases Schedule.refusesNesting_or_fit hnd with hrefused | hfit
    · exact .inr hrefused
    · exact .inl (hlevelled.ofBundle_eq hops hfit rfl harranged)

/-- The third operation slides to the front and the last one conflicts with two others, the first
of which is not in the last slot. -/
theorem tetrisAll_singles_four :
    let a : Instruction := { name := "a", resources := [.line 0, .line 1] }
    let b : Instruction := { name := "b", resources := [.line 1] }
    let c : Instruction := { name := "c", resources := [.line 2] }
    let d : Instruction := { name := "d", resources := [.line 2, .line 0] }
    let ops := [a, b, c, d]
    (∀ op ∈ ops, (resources op).Nodup ∧ (footprint op).isEmpty = true) ∧
    ∃ schedules s, Schedule.singles ops = .ok schedules ∧
      Schedule.tetrisAll schedules .left = .ok s ∧
      (Schedule.ofBundle (.ofList ops) .earliest = .ok s ∨ Schedule.RefusesNesting ops) := by
  intro a b c d ops
  have h : ∀ op ∈ ops, (resources op).Nodup ∧ (footprint op).isEmpty = true := by decide
  exact ⟨h, tetrisAll_singles h⟩

end Timetable
