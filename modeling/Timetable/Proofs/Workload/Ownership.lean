import Timetable.Proofs.Slot.Conflict
import Timetable.Proofs.Workload.Built
import Mathlib.Logic.Relation

/-!
# Instructions own what is below them

An instruction with a body is given the resources and keys of the body once, when it is made; later
it may be given more keys. What stands in the body has been given its own in the same way. So the
resources that an instruction reports are those of the bare instructions at the bottom, however deep
they are, and slots keep apart not only what stands in them but also everything below it.

* `BareBelow`: what is at the bottom of an operation.
* `Instruction.Made.body`: what an instruction has from its body.
* `Instruction.Made.mem_resources_iff`: the resources are those at the bottom.
* `Slot.OwnsBelow`, `build_ownsBelow`: what holds at every depth of the schedule of a workload.
-/

namespace Timetable

open Relation

section

variable {ω : Type} [Operation ω]

/-- The operation `bare` holds no schedule, and it is `op` or below it. -/
def BareBelow (op bare : ω) : Prop := ReflTransGen InBody op bare ∧ body? bare = none

theorem bareBelow_self {op : ω} (h : body? op = none) : BareBelow op op := ⟨.refl, h⟩

theorem BareBelow.head {op inner bare : ω} (hinner : InBody op inner) (h : BareBelow inner bare) :
    BareBelow op bare := ⟨.head hinner h.1, h.2⟩

end

namespace Instruction

/-! ### What an instruction has from its body -/

/-- The instruction acts on the resources and keys of the other one. -/
structure Covers (op inner : Instruction) : Prop where
  resources_subset : ∀ r ∈ inner.resources, r ∈ op.resources
  reads_subset : ∀ k ∈ inner.reads, k ∈ op.reads
  writes_subset : ∀ k ∈ inner.writes, k ∈ op.writes

namespace Covers

variable {op inner innermost : Instruction}

theorem refl (op : Instruction) : op.Covers op := ⟨fun _ => id, fun _ => id, fun _ => id⟩

theorem trans (h : op.Covers inner) (h' : inner.Covers innermost) : op.Covers innermost where
  resources_subset r hr := h.resources_subset r (h'.resources_subset r hr)
  reads_subset k hk := h.reads_subset k (h'.reads_subset k hk)
  writes_subset k hk := h.writes_subset k (h'.writes_subset k hk)

theorem reading (k : Key) (h : op.Covers inner) : (op.reading k).Covers inner where
  resources_subset := h.resources_subset
  reads_subset x hx := SortedSet.mem_insert.2 (.inr (h.reads_subset x hx))
  writes_subset := h.writes_subset

theorem writing (k : Key) (h : op.Covers inner) : (op.writing k).Covers inner where
  resources_subset := h.resources_subset
  reads_subset := h.reads_subset
  writes_subset x hx := SortedSet.mem_insert.2 (.inr (h.writes_subset x hx))

/-- The instruction around a body covers what stands in the body. -/
theorem wrap (name : String) {b : Body Instruction} {slot : Slot Instruction} (hs : slot.Sound)
    (hslot : slot ∈ b.slots) (hinner : inner ∈ slot.operations) :
    (Instruction.wrap name b).Covers inner where
  resources_subset r hr :=
    mem_resources_wrap.2 ⟨slot, hslot, Instruction.resources_subset hs hinner hr⟩
  reads_subset k hk := by
    refine SortedSet.mem_ofList.2 (List.mem_flatMap.2 ⟨slot, hslot, SortedSet.mem_ofList.2 ?_⟩)
    exact List.mem_flatMap.2 ⟨inner, hinner, hk⟩
  writes_subset k hk := by
    refine SortedSet.mem_ofList.2 (List.mem_flatMap.2 ⟨slot, hslot, SortedSet.mem_ofList.2 ?_⟩)
    exact List.mem_flatMap.2 ⟨inner, hinner, hk⟩

end Covers

namespace Made

variable {op inner : Instruction}

/-- The slots of the body are sound, and the instruction covers what stands in them. -/
theorem body (h : op.Made) {slots : List (Slot Instruction)} (hbody : body? op = some slots) :
    ∀ slot ∈ slots, slot.Sound ∧ ∀ inner ∈ slot.operations, inner.Made ∧ op.Covers inner := by
  induction h with
  | plain name rs => cases hbody
  | @wrap name b sound made _ =>
    cases hbody
    intro slot hslot
    refine ⟨sound slot hslot, fun inner hinner => ⟨made slot hslot inner hinner, ?_⟩⟩
    exact .wrap name (sound slot hslot) hslot hinner
  | reading k _ ih =>
    intro slot hslot
    obtain ⟨hs, hall⟩ := ih hbody slot hslot
    exact ⟨hs, fun inner hinner => ⟨(hall inner hinner).1, (hall inner hinner).2.reading k⟩⟩
  | writing k _ ih =>
    intro slot hslot
    obtain ⟨hs, hall⟩ := ih hbody slot hslot
    exact ⟨hs, fun inner hinner => ⟨(hall inner hinner).1, (hall inner hinner).2.writing k⟩⟩

/-- So it covers everything below it. -/
theorem covers (h : op.Made) (hbelow : ReflTransGen InBody op inner) :
    inner.Made ∧ op.Covers inner := by
  induction hbelow with
  | refl => exact ⟨h, .refl op⟩
  | tail _ hstep ih =>
    obtain ⟨slots, hbody, slot, hslot, hinner⟩ := hstep
    obtain ⟨hmade, hcovers⟩ := (ih.1.body hbody slot hslot).2 _ hinner
    exact ⟨hmade, ih.2.trans hcovers⟩

/-- Every resource of an instruction comes from the bottom. -/
theorem exists_bareBelow (op : Instruction) :
    op.Made → ∀ r ∈ op.resources, ∃ bare, BareBelow op bare ∧ r ∈ bare.resources := by
  induction op using body_induction with
  | step op ih =>
    intro h r hr
    cases hb : op.body with
    | none => exact ⟨op, bareBelow_self (congrArg (Option.map Body.slots) hb), hr⟩
    | some b =>
      have hbody : body? op = some b.slots := congrArg (Option.map Body.slots) hb
      obtain ⟨slot, hslot, hr⟩ := ((h.owns b hb).2 r).1 hr
      obtain ⟨hs, hall⟩ := h.body hbody slot hslot
      obtain ⟨inner, hinner, hr⟩ := List.mem_flatMap.1 (hs.mem_resourcesInUse_iff.1 hr)
      obtain ⟨bare, hbare, hr⟩ := ih b hb slot hslot inner hinner (hall inner hinner).1 r hr
      exact ⟨bare, hbare.head ⟨b.slots, hbody, slot, hslot, hinner⟩, hr⟩

/-- The resources of an instruction are those at the bottom. -/
theorem mem_resources_iff (h : op.Made) {r : Resource} :
    r ∈ op.resources ↔ ∃ bare, BareBelow op bare ∧ r ∈ bare.resources := by
  refine ⟨exists_bareBelow op h r, ?_⟩
  rintro ⟨bare, hbare, hr⟩
  exact (h.covers hbare.1).2.resources_subset r hr

end Made

end Instruction

/-! ### Slots -/

/-- Every operation of the slot acts on just the resources of the bare operations at or below it and
on all keys of what is below it, and what is at or below one operation shares no resource with what
is at or below another. -/
structure Slot.OwnsBelow (slot : Slot Instruction) : Prop where
  mem_resources_iff : ∀ op ∈ slot.operations, ∀ r,
    r ∈ op.resources ↔ ∃ bare, BareBelow op bare ∧ r ∈ bare.resources
  reads_subset : ∀ op ∈ slot.operations, ∀ inner, TransGen InBody op inner →
    ∀ k ∈ inner.reads, k ∈ op.reads
  writes_subset : ∀ op ∈ slot.operations, ∀ inner, TransGen InBody op inner →
    ∀ k ∈ inner.writes, k ∈ op.writes
  apart : slot.operations.Pairwise fun a b =>
    ∀ x y, BareBelow a x → BareBelow b y → ¬SharesResource x y

theorem Slot.Sound.ownsBelow {slot : Slot Instruction} (hs : slot.Sound)
    (hmade : ∀ op ∈ slot.operations, op.Made) : slot.OwnsBelow where
  mem_resources_iff op hop r := (hmade op hop).mem_resources_iff
  reads_subset op hop inner hinner :=
    ((hmade op hop).covers hinner.to_reflTransGen).2.reads_subset
  writes_subset op hop inner hinner :=
    ((hmade op hop).covers hinner.to_reflTransGen).2.writes_subset
  apart := by
    refine hs.pairwise_not_shares.imp_of_mem fun {a b} ha hb hapart x y hx hy hshare => ?_
    obtain ⟨r, hrx, hry⟩ := hshare
    have hra : r ∈ a.resources := (hmade a ha).mem_resources_iff.2 ⟨x, hx, hrx⟩
    have hrb : r ∈ b.resources := (hmade b hb).mem_resources_iff.2 ⟨y, hy, hry⟩
    exact hapart ⟨r, hra, hrb⟩

theorem Instruction.Made.throughout_ownsBelow (op : Instruction) : op.Made →
    ∀ inner, body? op = some inner → Throughout Slot.OwnsBelow inner := by
  induction op using body_induction with
  | step op ih =>
    intro h inner hbody
    obtain ⟨rule, hb⟩ := body?_eq.1 hbody
    have hall := h.body hbody
    refine .intro (fun slot hslot => ?_) fun slot hslot o ho => ?_
    · exact (hall slot hslot).1.ownsBelow fun o ho => ((hall slot hslot).2 o ho).1
    · exact ih _ hb slot hslot o ho ((hall slot hslot).2 o ho).1

/-- **Instructions own what is below them.** In the schedule that a workload builds, at every depth,
the resources of an instruction are those of the bare instructions at or below it, its keys contain
all keys of what is below it, and the bare instructions at or below different instructions of one
slot share no resource. -/
theorem build_ownsBelow {strategy : Strategy} {entries : List Workload.Entry}
    {s : Schedule Instruction} (h : Workload.build strategy entries = .ok s) :
    Throughout Slot.OwnsBelow s.slots := by
  obtain ⟨hs, hmade⟩ := Workload.made_of_build h
  have hops : ∀ slot ∈ s.slots, ∀ op ∈ slot.operations, op.Made :=
    fun slot hslot op hop => hmade op (List.mem_flatMap.2 ⟨slot, hslot, hop⟩)
  refine .intro (fun slot hslot => (hs slot hslot).ownsBelow (hops slot hslot)) ?_
  exact fun slot hslot op hop => (hops slot hslot op hop).throughout_ownsBelow

/-- Two instructions with bodies come to stand in one slot, one of them around a third. -/
theorem build_ownsBelow_two_deep :
    let m : Key := ⟨"m", by decide⟩
    let a : Workload.Job Workload.Entry := { name := "a", resources := [.line 0] }
    let b : Workload.Job Workload.Entry := { name := "b", resources := [.line 1], writes := [m] }
    let c : Workload.Job Workload.Entry := { name := "c", resources := [.line 2] }
    let wrapped (name : String) (entries : List Workload.Entry) : Workload.Entry :=
      .job { name, reads := [m], body := some entries }
    let entries : List Workload.Entry :=
      [wrapped "outer" [wrapped "pair" [.slot [a, b], .job a]], wrapped "side" [.job c]]
    ∃ s, Workload.build .inline entries = .ok s ∧
      s.slots.map (fun slot => slot.operations.map fun op => (op.name, op.resources)) =
        [[("outer", [.line 0, .line 1]), ("side", [.line 2])]] ∧
      Throughout Slot.OwnsBelow s.slots := by
  intro m a b c wrapped entries
  have hbuilt : (Workload.build .inline entries).toOption.map
      (fun s => s.slots.map fun slot => slot.operations.map fun op => (op.name, op.resources)) =
        some [[("outer", [.line 0, .line 1]), ("side", [.line 2])]] := by decide +kernel
  cases hs : Workload.build .inline entries with
  | error e =>
    rw [hs] at hbuilt
    cases hbuilt
  | ok s =>
    rw [hs] at hbuilt
    exact ⟨s, rfl, Option.some.inj hbuilt, build_ownsBelow hs⟩

end Timetable
