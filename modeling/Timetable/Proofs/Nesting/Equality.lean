import Timetable.Proofs.Renaming.Back

/-!
# Equality is equality up to order

Instructions are equal if they agree in name, resources and keys and hold equal bodies, and bodies
are compared by their slots, whose operations are instructions again. The comparison of two slots
asks the second one about each operation of the first, so instructions change sides from each level
to the next one, and it ends after as many levels as the first instruction has. If the operations of
all slots act on something, neither makes a difference: slots are equal if their operations are
equal up to order, and equality of instructions, slots, schedules and snapshots is an equivalence.

* `Instruction.Traceable`, `Slot.Traceable`: everything below acts on something.
* `Instruction.beq_iff`: equality without counting levels.
* `Slot.beq_iff_upToOrder`: slots are equal if their operations are equal up to order.
* `Instruction.beq_symm_iff`, `Instruction.beq_trans`: it is symmetric and transitive.
* `Held`, `Held.same`: schedules and snapshots, compared with each other.
* `equal_upToOrder`: all of it.
-/

namespace Timetable

open Instruction

/-! ### Everything below acts on something -/

/-- What stands below the instruction acts on something. -/
def Instruction.Traceable (op : Instruction) : Prop :=
  ∀ slots, body? op = some slots → Throughout Locatable slots

/-- The slot is sound, and its operations and what stands below them act on something. -/
structure Slot.Traceable (slot : Slot Instruction) : Prop extends Locatable slot where
  below : ∀ op ∈ slot.operations, op.Traceable

theorem throughout_locatable_iff {slots : List (Slot Instruction)} :
    Throughout Locatable slots ↔ ∀ slot ∈ slots, slot.Traceable := by
  constructor
  · exact fun h slot hslot => ⟨h.here slot hslot, h.inner slot hslot⟩
  · intro h
    refine .intro (fun slot hslot => (h slot hslot).toLocatable) ?_
    exact fun slot hslot op hop => (h slot hslot).below op hop

theorem Instruction.Traceable.slots {op : Instruction} (h : op.Traceable) {b : Body Instruction}
    (hb : op.body = some b) : ∀ slot ∈ b.slots, slot.Traceable :=
  throughout_locatable_iff.1 (h b.slots (body?_eq.2 ⟨b.ruleSerial, hb⟩))

theorem Instruction.Traceable.inner {op inner : Instruction} (h : op.Traceable)
    (hinner : InBody op inner) : inner.Traceable := by
  obtain ⟨slots, hbody, slot, hslot, hmem⟩ := hinner
  exact (throughout_locatable_iff.1 (h slots hbody) slot hslot).below inner hmem

theorem Instruction.inBody_of_body {op inner : Instruction} {b : Body Instruction}
    (hb : op.body = some b) {slot : Slot Instruction} (hslot : slot ∈ b.slots)
    (hinner : inner ∈ slot.operations) : InBody op inner :=
  ⟨b.slots, body?_eq.2 ⟨b.ruleSerial, hb⟩, slot, hslot, hinner⟩

theorem Instruction.traceable_nesting (name : String) {lists : List (List Instruction)}
    (h : ∀ ops ∈ lists, (slotOf ops).Traceable) : (nesting name lists).Traceable := by
  intro slots hslots
  cases hslots
  exact throughout_locatable_iff.2 (List.forall_mem_map.2 h)

theorem Slot.traceable_slotOf {ops : List Instruction} (hnd : (ops.flatMap resources).Nodup)
    (hops : ∀ op ∈ ops, op.resources ≠ [] ∧ op.Traceable) : (slotOf ops).Traceable where
  sound := Slot.sound_ofApart hnd
  acts op hop := (hops op hop).1
  below op hop := (hops op hop).2

/-! ### Equality without counting levels -/

namespace Instruction

variable {a b c : Instruction} {eq eq' : Instruction → Instruction → Bool}

theorem sameBody_iff {x y : Option (Body Instruction)} :
    sameBody eq x y = true ↔ Option.Rel (fun p q => p.ruleSerial = q.ruleSerial ∧
      List.Forall₂ (fun s t => s.sameBy resources eq t = true) p.slots q.slots) x y := by
  cases x <;> cases y <;> simp [sameBody, Slot.listSameBy_iff_forall₂]

/-- Bodies are compared by comparing what stands in them. -/
theorem sameBody_mono
    (himp : ∀ x, InBody a x → ∀ y, InBody b y → eq y x = true → eq' y x = true)
    (h : sameBody eq a.body b.body = true) : sameBody eq' a.body b.body = true := by
  rw [sameBody_iff] at h ⊢
  refine OptionRel.imp_mem h fun p hp q hq hpq => ⟨hpq.1, forall₂_imp_mem hpq.2 ?_⟩
  intro s hs t ht hst
  refine Slot.sameBy_mono (fun x hx y hy => ?_) hst
  exact himp x (inBody_of_body hp hs hx) y (inBody_of_body hq ht hy)

/-- More levels make no difference, and neither do fewer, as long as they are enough for one of the
instructions. -/
theorem sameTo_of_sameTo {n m : Nat} (h : sameTo n a b = true)
    (hm : n ≤ m ∨ a.depth < m ∨ b.depth < m) : sameTo m a b = true := by
  induction m generalizing n a b with
  | zero =>
    obtain rfl : n = 0 := by omega
    exact h
  | succ m ih =>
    cases n with
    | zero => cases h
    | succ n =>
      rw [sameTo, Bool.and_eq_true] at h ⊢
      refine ⟨h.1, sameBody_mono (fun x hx y hy hyx => ih hyx ?_) h.2⟩
      have hx := depth_lt_of_inBody hx
      have hy := depth_lt_of_inBody hy
      omega

theorem beq_iff_sameTo : (a == b) = true ↔ ∃ n, sameTo n a b = true := by
  refine ⟨fun h => ⟨_, h⟩, fun h => ?_⟩
  obtain ⟨n, h⟩ := h
  exact sameTo_of_sameTo h (.inr (.inl (Nat.lt_succ_self _)))

/-- Instructions are equal if they agree in name, resources and keys and hold equal bodies. -/
theorem beq_iff : (a == b) = true ↔
    (a.name = b.name ∧ a.resources = b.resources ∧ a.reads = b.reads ∧ a.writes = b.writes) ∧
      sameBody (· == ·) a.body b.body = true := by
  have hlevel : ∀ n, sameTo (n + 1) a b = true ↔
      (a.name = b.name ∧ a.resources = b.resources ∧ a.reads = b.reads ∧ a.writes = b.writes) ∧
        sameBody (sameTo n) a.body b.body = true := by
    intro n
    simp [sameTo, and_assoc]
  constructor
  · intro h
    obtain ⟨hfields, hbody⟩ := (hlevel a.depth).1 h
    exact ⟨hfields, sameBody_mono (fun x _ y _ hyx => beq_iff_sameTo.2 ⟨_, hyx⟩) hbody⟩
  · rintro ⟨hfields, hbody⟩
    refine (hlevel a.depth).2 ⟨hfields, sameBody_mono (fun x hx y _ hyx => ?_) hbody⟩
    obtain ⟨n, hyx⟩ := beq_iff_sameTo.1 hyx
    exact sameTo_of_sameTo hyx (.inr (.inr (depth_lt_of_inBody hx)))

end Instruction

/-! ### Symmetry and transitivity -/

namespace Slot

variable {s t u : Slot Instruction}

/-- Slots are equal if their operations are equal up to order; the second slot is the one that is
asked, so its operations come first. -/
theorem beq_iff_swapped (hs : s.Traceable) (ht : t.Traceable) :
    (s == t) = true ↔ UpToOrder (fun a b => (b == a) = true) s.operations t.operations :=
  hs.sound.sameBy_iff_upToOrder ht.sound hs.acts
    fun _ _ hab => (Instruction.beq_iff.1 hab).1.2.1

theorem beq_symm_of (hs : s.Traceable) (ht : t.Traceable)
    (hsymm : ∀ a ∈ s.operations, ∀ b ∈ t.operations, (b == a) = true → (a == b) = true)
    (h : (s == t) = true) : (t == s) = true :=
  (beq_iff_swapped ht hs).2 (((beq_iff_swapped hs ht).1 h).swap_mem hsymm)

theorem beq_trans_of (hs : s.Traceable) (ht : t.Traceable) (hu : u.Traceable)
    (htrans : ∀ a ∈ s.operations, ∀ b ∈ t.operations, ∀ c ∈ u.operations,
      (b == a) = true → (c == b) = true → (c == a) = true)
    (h : (s == t) = true) (h' : (t == u) = true) : (s == u) = true :=
  (beq_iff_swapped hs hu).2
    (((beq_iff_swapped hs ht).1 h).trans_mem ((beq_iff_swapped ht hu).1 h') htrans)

end Slot

namespace Instruction

variable {a b c : Instruction}

/-- Equality of instructions is symmetric if it is for what stands in their bodies, where they have
changed sides. -/
theorem beq_symm_of (ha : a.Traceable) (hb : b.Traceable)
    (hsymm : ∀ x, InBody a x → ∀ y, InBody b y → (y == x) = true → (x == y) = true)
    (h : (a == b) = true) : (b == a) = true := by
  rw [beq_iff, sameBody_iff] at h ⊢
  obtain ⟨⟨hname, hresources, hreads, hwrites⟩, hbody⟩ := h
  refine ⟨⟨hname.symm, hresources.symm, hreads.symm, hwrites.symm⟩, ?_⟩
  refine OptionRel.swap_mem hbody fun p hp q hq hpq => ⟨hpq.1.symm, List.Forall₂.flip ?_⟩
  refine forall₂_imp_mem hpq.2 fun s hs t ht hst => ?_
  refine Slot.beq_symm_of (ha.slots hp s hs) (hb.slots hq t ht) (fun x hx y hy => ?_) hst
  exact hsymm x (inBody_of_body hp hs hx) y (inBody_of_body hq ht hy)

/-- Equality of instructions does not depend on the side. -/
theorem beq_symm_iff (a : Instruction) :
    a.Traceable → ∀ b : Instruction, b.Traceable → ((a == b) = true ↔ (b == a) = true) := by
  induction a using inBody_induction with
  | step a ih =>
    intro ha b hb
    constructor
    · exact beq_symm_of ha hb fun x hx y hy => (ih x hx (ha.inner hx) y (hb.inner hy)).2
    · exact beq_symm_of hb ha fun y hy x hx => (ih x hx (ha.inner hx) y (hb.inner hy)).1

theorem beq_trans (a : Instruction) : ∀ b c : Instruction, a.Traceable → b.Traceable →
    c.Traceable → (a == b) = true → (b == c) = true → (a == c) = true := by
  induction a using inBody_induction with
  | step a ih =>
    intro b c ha hb hc hab hbc
    rw [beq_iff, sameBody_iff] at hab hbc ⊢
    obtain ⟨⟨hname, hresources, hreads, hwrites⟩, hbody⟩ := hab
    obtain ⟨⟨hname', hresources', hreads', hwrites'⟩, hbody'⟩ := hbc
    refine ⟨⟨hname.trans hname', hresources.trans hresources', hreads.trans hreads',
      hwrites.trans hwrites'⟩, ?_⟩
    refine OptionRel.trans_mem hbody hbody' fun p hp q hq r hr hpq hqr => ?_
    refine ⟨hpq.1.trans hqr.1, forall₂_trans_mem hpq.2 hqr.2 fun s hs t ht u hu => ?_⟩
    refine Slot.beq_trans_of (ha.slots hp s hs) (hb.slots hq t ht) (hc.slots hr u hu) ?_
    intro x hx y hy z hz hyx hzy
    have hx := inBody_of_body hp hs hx
    have hy := inBody_of_body hq ht hy
    have hz := inBody_of_body hr hu hz
    -- the instructions have changed sides
    have hxy := (beq_symm_iff y (hb.inner hy) x (ha.inner hx)).1 hyx
    have hyz := (beq_symm_iff z (hc.inner hz) y (hb.inner hy)).1 hzy
    have hxz := ih x hx y z (ha.inner hx) (hb.inner hy) (hc.inner hz) hxy hyz
    exact (beq_symm_iff x (ha.inner hx) z (hc.inner hz)).1 hxz

theorem Traceable.beq_self (ha : a.Traceable) : (a == a) = true :=
  sameTo_self (fun inner hinner => (ha inner hinner).mono fun _ h => h.sound)
    (Nat.lt_succ_self _)

end Instruction

namespace Slot

variable {s t u : Slot Instruction}

theorem beq_symm (hs : s.Traceable) (ht : t.Traceable) : (s == t) = true → (t == s) = true :=
  beq_symm_of hs ht fun a ha b hb =>
    (beq_symm_iff b (ht.below b hb) a (hs.below a ha)).1

theorem beq_iff_upToOrder (hs : s.Traceable) (ht : t.Traceable) :
    (s == t) = true ↔ UpToOrder (fun a b => (a == b) = true) s.operations t.operations := by
  constructor
  · intro h
    exact ((beq_iff_swapped ht hs).1 (beq_symm hs ht h)).swap_mem fun _ _ _ _ => id
  · intro h
    exact beq_symm ht hs ((beq_iff_swapped ht hs).2 (h.swap_mem fun _ _ _ _ => id))

theorem beq_trans (hs : s.Traceable) (ht : t.Traceable) (hu : u.Traceable)
    (h : (s == t) = true) (h' : (t == u) = true) : (s == u) = true := by
  rw [beq_iff_upToOrder hs ht] at h
  rw [beq_iff_upToOrder ht hu] at h'
  rw [beq_iff_upToOrder hs hu]
  refine h.trans_mem h' fun a ha b hb c hc => ?_
  exact Instruction.beq_trans a b c (hs.below a ha) (ht.below b hb) (hu.below c hc)

theorem Traceable.beq_self (hs : s.Traceable) : (s == s) = true :=
  hs.sound.sameBy_self fun op hop => (hs.below op hop).beq_self

theorem Sound.contains_eq (hs : s.Sound) (op : Instruction) :
    s.contains op = s.operations.any (· == op) :=
  hs.holdsBy_eq_any (fun _ _ hab => (Instruction.beq_iff.1 hab).1.2.1) op

end Slot

/-! ### Schedules and snapshots -/

namespace Schedule

variable {s t u : Schedule Instruction}

theorem sameRule_iff {x y : Option (Acceptance Instruction)} :
    Schedule.same.sameRule x y = true ↔ x.map Acceptance.serial = y.map Acceptance.serial := by
  cases x <;> cases y <;> simp [Schedule.same.sameRule, Acceptance.same]

/-- Schedules are equal if they are under the same rule and agree slot by slot. -/
theorem beq_iff : (s == t) = true ↔
    s.acceptance.map Acceptance.serial = t.acceptance.map Acceptance.serial ∧
      List.Forall₂ (fun a b => (a == b) = true) s.slots t.slots := by
  show (Schedule.same.sameRule s.acceptance t.acceptance && s.slots == t.slots) = true ↔ _
  rw [Bool.and_eq_true, sameRule_iff, ← Slot.listSameBy_eq_beq, Slot.listSameBy_iff_forall₂]
  rfl

theorem beq_symm (hs : ∀ slot ∈ s.slots, slot.Traceable) (ht : ∀ slot ∈ t.slots, slot.Traceable)
    (h : (s == t) = true) : (t == s) = true := by
  rw [beq_iff] at h ⊢
  refine ⟨h.1.symm, List.Forall₂.flip (forall₂_imp_mem h.2 fun a ha b hb => ?_)⟩
  exact Slot.beq_symm (hs a ha) (ht b hb)

theorem beq_trans (hs : ∀ slot ∈ s.slots, slot.Traceable) (ht : ∀ slot ∈ t.slots, slot.Traceable)
    (hu : ∀ slot ∈ u.slots, slot.Traceable) (h : (s == t) = true) (h' : (t == u) = true) :
    (s == u) = true := by
  rw [beq_iff] at h h' ⊢
  refine ⟨h.1.trans h'.1, forall₂_trans_mem h.2 h'.2 fun a ha b hb c hc => ?_⟩
  exact Slot.beq_trans (hs a ha) (ht b hb) (hu c hc)

theorem beq_iff_upToOrder (hs : ∀ slot ∈ s.slots, slot.Traceable)
    (ht : ∀ slot ∈ t.slots, slot.Traceable) : (s == t) = true ↔
    s.acceptance.map Acceptance.serial = t.acceptance.map Acceptance.serial ∧
      List.Forall₂ (fun x y => UpToOrder (fun a b => (a == b) = true) x.operations y.operations)
        s.slots t.slots := by
  rw [beq_iff]
  constructor
  · rintro ⟨hrule, h⟩
    exact ⟨hrule, forall₂_imp_mem h fun x hx y hy =>
      (Slot.beq_iff_upToOrder (hs x hx) (ht y hy)).1⟩
  · rintro ⟨hrule, h⟩
    exact ⟨hrule, forall₂_imp_mem h fun x hx y hy =>
      (Slot.beq_iff_upToOrder (hs x hx) (ht y hy)).2⟩

end Schedule

/-- A schedule, or a snapshot of one. -/
inductive Held where
  | schedule (s : Schedule Instruction)
  | snapshot (f : Snapshot Instruction)

namespace Held

def held : Held → Schedule Instruction
  | .schedule s => s
  | .snapshot f => f.schedule

/-- Whether both hold the same; each sort can be compared with each. -/
def same : Held → Held → Bool
  | .schedule s, .schedule t => s == t
  | .schedule s, .snapshot g => s.sameAs g
  | .snapshot f, .schedule t => f.sameAs t
  | .snapshot f, .snapshot g => f == g

variable {x y : Held}

/-- All four comparisons are that of the schedules, with the sides changed in one of them. -/
theorem same_iff (hx : ∀ slot ∈ x.held.slots, slot.Traceable)
    (hy : ∀ slot ∈ y.held.slots, slot.Traceable) :
    x.same y = true ↔ (x.held == y.held) = true := by
  cases x with
  | schedule s =>
    cases y with
    | schedule t => exact Iff.rfl
    | snapshot g => exact ⟨Schedule.beq_symm hy hx, Schedule.beq_symm hx hy⟩
  | snapshot f => cases y <;> exact Iff.rfl

end Held

/-- **Equality is equality up to order.** If all operations act on something, at every depth, two
slots are equal just when their operations are equal up to order, and a slot holds an operation just
when one of its operations is equal to it. Equality of instructions, of slots, and of schedules and
snapshots with each other is reflexive, symmetric and transitive. Schedules and snapshots are equal
if they are under the same rule and their slots agree up to order. -/
theorem equal_upToOrder :
    (∀ s t : Slot Instruction, s.Traceable → t.Traceable →
      ((s == t) = true ↔ UpToOrder (fun a b => (a == b) = true) s.operations t.operations)) ∧
    (∀ (s : Slot Instruction) (op : Instruction), s.Sound →
      s.contains op = s.operations.any (· == op)) ∧
    (∀ x y : Held, Throughout Locatable x.held.slots → Throughout Locatable y.held.slots →
      (x.same y = true ↔
        x.held.acceptance.map Acceptance.serial = y.held.acceptance.map Acceptance.serial ∧
        List.Forall₂ (fun s t => UpToOrder (fun a b => (a == b) = true) s.operations t.operations)
          x.held.slots y.held.slots)) ∧
    (Equivalence fun a b : {op : Instruction // op.Traceable} => (a.1 == b.1) = true) ∧
    (Equivalence fun s t : {slot : Slot Instruction // slot.Traceable} => (s.1 == t.1) = true) ∧
    Equivalence fun x y : {x : Held // Throughout Locatable x.held.slots} =>
      x.1.same y.1 = true := by
  refine ⟨fun s t => Slot.beq_iff_upToOrder, fun s op hs => hs.contains_eq op, ?_, ?_, ?_, ?_⟩
  · intro x y hx hy
    rw [throughout_locatable_iff] at hx hy
    rw [Held.same_iff hx hy, Schedule.beq_iff_upToOrder hx hy]
  · exact ⟨fun a => a.2.beq_self, fun {a b} => (beq_symm_iff a.1 a.2 b.1 b.2).1,
      fun {a b c} => Instruction.beq_trans a.1 b.1 c.1 a.2 b.2 c.2⟩
  · exact ⟨fun s => s.2.beq_self, fun {s t} => Slot.beq_symm s.2 t.2,
      fun {s t u} => Slot.beq_trans s.2 t.2 u.2⟩
  · have hslots : ∀ x : {x : Held // Throughout Locatable x.held.slots},
        ∀ slot ∈ x.1.held.slots, slot.Traceable := fun x => throughout_locatable_iff.1 x.2
    constructor
    · intro x
      rw [Held.same_iff (hslots x) (hslots x)]
      exact Schedule.same_self (x.2.mono fun _ h => h.sound)
    · intro x y h
      rw [Held.same_iff (hslots x) (hslots y)] at h
      rw [Held.same_iff (hslots y) (hslots x)]
      exact Schedule.beq_symm (hslots x) (hslots y) h
    · intro x y z h h'
      rw [Held.same_iff (hslots x) (hslots y)] at h
      rw [Held.same_iff (hslots y) (hslots z)] at h'
      rw [Held.same_iff (hslots x) (hslots z)]
      exact Schedule.beq_trans (hslots x) (hslots y) (hslots z) h h'

/-- Two operations have changed their places inside a body, and so has the instruction around it. -/
theorem equal_upToOrder_nested :
    let a : Instruction := { name := "a", resources := [.line 0] }
    let b : Instruction := { name := "b", resources := [.line 1] }
    let c : Instruction := { name := "c", resources := [.line 2] }
    let sub := nesting "sub" [[a, b]]
    let sub' := nesting "sub" [[b, a]]
    let s := slotOf [sub, c]
    let t := slotOf [c, sub']
    s.Traceable ∧ t.Traceable ∧ UpToOrder (fun a b => (a == b) = true) s.operations t.operations ∧
      (sub' == sub) = true ∧ s.contains sub' = true ∧
      (Held.schedule (.ofSlots [s])).same (.snapshot ((Schedule.ofSlots [t]).freeze 0)) = true := by
  intro a b c sub sub' s t
  let x := Held.schedule (.ofSlots [s])
  let y := Held.snapshot ((Schedule.ofSlots [t]).freeze 0)
  have hpair : ∀ x y : Instruction, ([x, y].flatMap resources).Nodup →
      (x.resources ≠ [] ∧ x.Traceable) → (y.resources ≠ [] ∧ y.Traceable) →
        (slotOf [x, y]).Traceable := by
    intro x y hnd hx hy
    exact Slot.traceable_slotOf hnd (List.forall_mem_cons.2 ⟨hx, List.forall_mem_singleton.2 hy⟩)
  have ha : a.resources ≠ [] ∧ a.Traceable := ⟨by decide, nofun⟩
  have hb : b.resources ≠ [] ∧ b.Traceable := ⟨by decide, nofun⟩
  have hc : c.resources ≠ [] ∧ c.Traceable := ⟨by decide, nofun⟩
  have hsub : sub.Traceable :=
    traceable_nesting "sub" (List.forall_mem_singleton.2 (hpair a b (by decide) ha hb))
  have hsub' : sub'.Traceable :=
    traceable_nesting "sub" (List.forall_mem_singleton.2 (hpair b a (by decide) hb ha))
  have hs : s.Traceable := hpair sub c (by decide) ⟨by decide, hsub⟩ hc
  have ht : t.Traceable := hpair c sub' (by decide) hc ⟨by decide, hsub'⟩
  obtain ⟨hslots, hcontains, hheld, hinstructions, -, -⟩ := equal_upToOrder
  have hsubs : (sub' == sub) = true := by
    have h : (sub == sub') = true := by decide +kernel
    exact hinstructions.symm (x := ⟨sub, hsub⟩) (y := ⟨sub', hsub'⟩) h
  have hst : UpToOrder (fun a b => (a == b) = true) s.operations t.operations :=
    (hslots s t hs ht).1 (by decide +kernel)
  have hx : Throughout Locatable x.held.slots :=
    throughout_locatable_iff.2 (List.forall_mem_singleton.2 hs)
  have hy : Throughout Locatable y.held.slots :=
    throughout_locatable_iff.2 (List.forall_mem_singleton.2 ht)
  refine ⟨hs, ht, hst, hsubs, ?_, (hheld x y hx hy).2 ?_⟩
  · rw [hcontains s sub' hs.sound]
    decide +kernel
  · exact ⟨rfl, .cons hst .nil⟩

/-- Operations that act on nothing are looked for everywhere, and two may find the same one. -/
example :
    let x : Instruction := { name := "x", resources := [] }
    let y : Instruction := { name := "y", resources := [] }
    (slotOf [x, x] == slotOf [x, y]) = true ∧ (slotOf [x, y] == slotOf [x, x]) = false := by
  decide +kernel

end Timetable
