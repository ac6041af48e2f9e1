import Timetable.Instruction
import Timetable.Proofs.Slot.Parts
import Mathlib.Data.Set.Function

/-!
# Renamed instructions

Renaming an instruction rebuilds every slot of its body, and the bodies inside it, and gives up
where two operations of a slot come to overlap. Where none do, it is the plain map over all
instructions at all depths: the resources change, the slots are indexed anew, names and keys stay.

* `Throughout`: a statement about the slots of a schedule and of all bodies in it.
* `InBody`: what stands in the body of an operation.
* `Instruction.carry`: the plain map, with a choice of what becomes of the rules of bodies;
  `Instruction.carry_carry` and `Instruction.carrySlots_id` are its laws.
* `Instruction.unruled`, `Instruction.relabelled`: slots without rules, and with other resources.
* `Slot.Apart`: the operations of a slot do not overlap after a renaming.
* `Instruction.renameSlots_eq_ok_iff`, `Instruction.rename_eq_carry`: when renaming succeeds, and
  when it is the plain map; `Schedule.rename_eq_ok_iff` and `Schedule.rename_eq_ok` say the same of
  whole schedules.
-/

namespace Timetable

/-! ### Slots at every depth -/

section

variable {ω : Type} [Operation ω]

/-- The statement holds of every slot, and of every slot of the bodies, at whatever depth. -/
inductive Throughout (P : Slot ω → Prop) : List (Slot ω) → Prop
  | intro {slots : List (Slot ω)} (here : ∀ slot ∈ slots, P slot)
      (inner : ∀ slot ∈ slots, ∀ op ∈ slot.operations, ∀ body, body? op = some body →
        Throughout P body) : Throughout P slots

namespace Throughout

variable {P Q : Slot ω → Prop} {slots : List (Slot ω)}

theorem here (h : Throughout P slots) : ∀ slot ∈ slots, P slot := by
  cases h with
  | intro here _ => exact here

theorem inner (h : Throughout P slots) : ∀ slot ∈ slots, ∀ op ∈ slot.operations, ∀ body,
    body? op = some body → Throughout P body := by
  cases h with
  | intro _ inner => exact inner

theorem mono (hPQ : ∀ slot, P slot → Q slot) (h : Throughout P slots) : Throughout Q slots := by
  induction h with
  | intro here _ ih => exact .intro (fun slot hslot => hPQ slot (here slot hslot)) ih

theorem and (hP : Throughout P slots) (hQ : Throughout Q slots) :
    Throughout (fun slot => P slot ∧ Q slot) slots := by
  induction hP with
  | intro here _ ih =>
    refine .intro (fun slot hslot => ⟨here slot hslot, hQ.here slot hslot⟩) ?_
    exact fun slot hslot op hop body hbody =>
      ih slot hslot op hop body hbody (hQ.inner slot hslot op hop body hbody)

end Throughout

def InBody (outer inner : ω) : Prop :=
  ∃ slots, body? outer = some slots ∧ ∃ slot ∈ slots, inner ∈ slot.operations

/-- After the renaming, too, no resource is named twice by the operations. -/
def Slot.Apart (f : Resource → Resource) (s : Slot ω) : Prop :=
  ((s.operations.flatMap resources).map f).Nodup

theorem Slot.Apart.nodup {f : Resource → Resource} {s : Slot ω} (h : s.Apart f) {op : ω}
    (hop : op ∈ s.operations) : ((resources op).map f).Nodup := by
  rw [Slot.Apart, List.map_flatMap] at h
  exact (List.nodup_flatMap.1 h).1 op hop

/-- The operations of a slot stay apart when different resources in use stay different. -/
theorem Slot.Sound.apart_iff {s : Slot ω} (hs : s.Sound) {f : Resource → Resource} :
    s.Apart f ↔ Set.InjOn f {r | r ∈ s.resourcesInUse} := by
  rw [Slot.Apart, List.nodup_map_iff_inj_on hs.usesOnce]
  simp only [Set.InjOn, Set.mem_ofPred_eq, hs.mem_resourcesInUse_iff]

theorem Slot.Sound.apart {s : Slot ω} (hs : s.Sound) {f : Resource → Resource}
    (hf : Function.Injective f) : s.Apart f :=
  hs.apart_iff.2 hf.injOn

/-- Operations that stay apart make a slot after they have been changed. -/
theorem Slot.Apart.sound_map {f : Resource → Resource} {s : Slot ω} (h : s.Apart f) {m : ω → ω}
    (hm : ∀ op, resources (m op) = (resources op).map f) :
    (s.mapOperations m).Sound := by
  rw [Slot.Apart, List.map_flatMap] at h
  refine Slot.sound_ofApart ?_
  rw [List.flatMap_map]
  simpa only [hm] using h

end

namespace Instruction

theorem body?_eq {op : Instruction} {slots : List (Slot Instruction)} :
    body? op = some slots ↔ ∃ rule, op.body = some ⟨slots, rule⟩ := by
  show op.body.map Body.slots = some slots ↔ _
  rcases op.body with _ | ⟨inner, rule⟩ <;> simp

/-- What holds of an instruction whenever it holds of those in its body, holds of all. -/
theorem body_induction {P : Instruction → Prop}
    (step : ∀ op, (∀ b, op.body = some b → ∀ slot ∈ b.slots, ∀ inner ∈ slot.operations,
      P inner) → P op) (op : Instruction) : P op := by
  generalize hn : op.depth = n
  induction n using Nat.strongRecOn generalizing op with
  | ind n ih =>
    refine step op fun b hb slot hslot inner hinner => ?_
    exact ih _ (hn ▸ depth_lt_of_body hb hslot hinner) inner rfl

theorem depth_lt_of_inBody {op inner : Instruction} (h : InBody op inner) :
    inner.depth < op.depth := by
  obtain ⟨slots, hbody, slot, hslot, hinner⟩ := h
  obtain ⟨rule, hb⟩ := body?_eq.1 hbody
  exact depth_lt_of_body hb hslot hinner

theorem inBody_induction {P : Instruction → Prop}
    (step : ∀ op, (∀ inner, InBody op inner → P inner) → P op) (op : Instruction) : P op := by
  induction op using body_induction with
  | step op ih =>
    refine step op fun inner hinner => ?_
    obtain ⟨slots, hbody, slot, hslot, hmem⟩ := hinner
    obtain ⟨rule, hb⟩ := body?_eq.1 hbody
    exact ih _ hb slot hslot inner hmem

/-! ### The plain map -/

mutual

/-- The instruction on the resources `f r` instead of `r`, and so for all instructions inside it.
The slots of bodies are indexed anew, and `rule` tells which rule a body is under afterwards. -/
def carry (f : Resource → Resource) (rule : Option Nat → Option Nat) : Instruction → Instruction
  | ⟨name, rs, reads, writes, body⟩ => ⟨name, rs.map f, reads, writes, carryBody f rule body⟩

def carryBody (f : Resource → Resource) (rule : Option Nat → Option Nat) :
    Option (Body Instruction) → Option (Body Instruction)
  | none => none
  | some ⟨slots, serial⟩ => some ⟨carrySlots f rule slots, rule serial⟩

def carrySlots (f : Resource → Resource) (rule : Option Nat → Option Nat) :
    List (Slot Instruction) → List (Slot Instruction)
  | [] => []
  | ⟨ops, _⟩ :: slots => .ofApart (carryList f rule ops) :: carrySlots f rule slots

def carryList (f : Resource → Resource) (rule : Option Nat → Option Nat) :
    List Instruction → List Instruction
  | [] => []
  | op :: ops => op.carry f rule :: carryList f rule ops

end

variable {f g : Resource → Resource} {rule rule' : Option Nat → Option Nat}
  {slots : List (Slot Instruction)}

theorem carryList_eq (ops : List Instruction) : carryList f rule ops = ops.map (carry f rule) := by
  induction ops with
  | nil => rfl
  | cons op ops ih => rw [carryList, ih, List.map_cons]

theorem carrySlots_eq (slots : List (Slot Instruction)) :
    carrySlots f rule slots = slots.map (Slot.mapOperations (carry f rule)) := by
  induction slots with
  | nil => rfl
  | cons slot slots ih =>
    rw [carrySlots, ih, carryList_eq]
    rfl

theorem carry_eq (op : Instruction) :
    op.carry f rule = { op with
      resources := op.resources.map f
      body := op.body.map fun b => ⟨carrySlots f rule b.slots, rule b.ruleSerial⟩ } := by
  rcases op with ⟨name, rs, reads, writes, _ | ⟨slots, serial⟩⟩ <;> rfl

@[simp]
theorem resources_carry (op : Instruction) :
    Timetable.resources (op.carry f rule) = (Timetable.resources op).map f := by
  rw [carry_eq]
  rfl

theorem mem_carrySlots {slot : Slot Instruction} :
    slot ∈ carrySlots f rule slots ↔ ∃ old ∈ slots, old.mapOperations (carry f rule) = slot := by
  rw [carrySlots_eq, List.mem_map]

theorem body?_carry {op : Instruction} {inner : List (Slot Instruction)} :
    body? (op.carry f rule) = some inner ↔
      ∃ old, body? op = some old ∧ carrySlots f rule old = inner := by
  rcases op with ⟨name, rs, reads, writes, _ | ⟨old, serial⟩⟩ <;>
    simp [carry, carryBody, body?]

theorem apart_carry_iff {slot : Slot Instruction} :
    (slot.mapOperations (carry f rule)).Apart g ↔ slot.Apart (g ∘ f) := by
  rw [Slot.Apart, Slot.Apart, Slot.operations_mapOperations, List.flatMap_map, List.map_flatMap,
    List.map_flatMap]
  simp only [resources_carry, List.map_map]

/-- What holds of each carried slot holds of all of them, at all depths. -/
theorem throughout_carrySlots {P Q : Slot Instruction → Prop} (h : Throughout P slots)
    (hslot : ∀ slot, P slot →
      (∀ op ∈ slot.operations, ∀ body, body? op = some body → Throughout P body) →
      Q (slot.mapOperations (carry f rule))) :
    Throughout Q (carrySlots f rule slots) := by
  induction h with
  | @intro slots here inner ih =>
    refine .intro (fun slot' hslot' => ?_) fun slot' hslot' op' hop' inner' hinner' => ?_
    · obtain ⟨slot, hmem, rfl⟩ := mem_carrySlots.1 hslot'
      exact hslot slot (here slot hmem) (inner slot hmem)
    · obtain ⟨slot, hmem, rfl⟩ := mem_carrySlots.1 hslot'
      obtain ⟨op, hop, rfl⟩ := List.mem_map.1 hop'
      obtain ⟨body, hbody, rfl⟩ := body?_carry.1 hinner'
      exact ih slot hmem op hop body hbody

/-- One map after another. -/
theorem carry_carry (op : Instruction) :
    (op.carry f rule).carry g rule' = op.carry (g ∘ f) (rule' ∘ rule) := by
  induction op using body_induction with
  | step op ih =>
  have hbody : op.body.map (fun b =>
        (⟨carrySlots g rule' (carrySlots f rule b.slots), rule' (rule b.ruleSerial)⟩ :
          Body Instruction))
      = op.body.map fun b =>
        ⟨carrySlots (g ∘ f) (rule' ∘ rule) b.slots, (rule' ∘ rule) b.ruleSerial⟩ := by
    refine Option.map_congr fun b hb => ?_
    simp only [carrySlots_eq, List.map_map, Function.comp_def]
    refine congrArg (Body.mk · _) (List.map_congr_left fun slot hslot => ?_)
    exact Slot.mapOperations_mapOperations fun inner hinner => ih b hb slot hslot inner hinner
  simp only [carry_eq, List.map_map, Option.map_map, Function.comp_def] at hbody ⊢
  rw [hbody]

theorem carrySlots_carrySlots (slots : List (Slot Instruction)) :
    carrySlots g rule' (carrySlots f rule slots) = carrySlots (g ∘ f) (rule' ∘ rule) slots := by
  simp only [carrySlots_eq, List.map_map]
  refine List.map_congr_left fun slot _ => ?_
  exact Slot.mapOperations_mapOperations fun op _ => carry_carry op

theorem carry_id_of_body {op : Instruction}
    (h : ∀ inner, body? op = some inner → carrySlots id id inner = inner) :
    op.carry id id = op := by
  rcases op with ⟨name, rs, reads, writes, _ | ⟨slots, serial⟩⟩
  · simp [carry, carryBody]
  · simp [carry, carryBody, h slots rfl]

/-- The map that changes nothing builds sound slots anew as they are. -/
theorem carrySlots_id (h : Throughout Slot.Sound slots) : carrySlots id id slots = slots := by
  induction h with
  | @intro slots here _ ih =>
    have hslot : ∀ slot ∈ slots, slot.mapOperations (carry id id) = slot := fun slot hslot =>
      (here slot hslot).mapOperations_eq_self fun op hop => carry_id_of_body (ih slot hslot op hop)
    rw [carrySlots_eq]
    exact (List.map_congr_left hslot).trans (List.map_id slots)

def withoutRules (op : Instruction) : Instruction := op.carry id fun _ => none

def unruled (slots : List (Slot Instruction)) : List (Slot Instruction) :=
  carrySlots id (fun _ => none) slots

/-- The slots with all instructions on the resources `f r` instead of `r`, at all depths. -/
def relabelled (f : Resource → Resource) (slots : List (Slot Instruction)) :
    List (Slot Instruction) :=
  carrySlots f id slots

/-- Of all rules that a map may leave, none is there afterwards. -/
theorem unruled_carrySlots (slots : List (Slot Instruction)) :
    unruled (carrySlots f rule slots) = carrySlots f (fun _ => none) slots := by
  rw [unruled, carrySlots_carrySlots]
  rfl

/-! ### Renaming -/

theorem renameList_eq (ops : List Instruction) : renameList f ops = ops.map (rename f) := by
  induction ops with
  | nil => rfl
  | cons op ops ih => rw [renameList, ih, List.map_cons]

@[simp]
theorem resources_rename (op : Instruction) :
    Timetable.resources (op.rename f) = (Timetable.resources op).map f := by
  cases op
  rfl

/-- Renamed operations make a slot exactly when the operations stay apart. -/
theorem ofOperations_rename_eq_ok_iff {slot renamed : Slot Instruction} :
    Slot.ofOperations (slot.operations.map (rename f)) = .ok renamed ↔
      slot.Apart f ∧ renamed = slot.mapOperations (rename f) := by
  rw [Slot.ofOperations_eq_ok_iff, Slot.Apart, List.flatMap_map, List.map_flatMap]
  simp only [resources_rename, Slot.mapOperations]

/-- Slots can be renamed exactly when the operations of each one stay apart. -/
theorem renameSlots_eq_ok_iff {renamed : List (Slot Instruction)} :
    renameSlots f slots = .ok renamed ↔ (∀ slot ∈ slots, slot.Apart f) ∧
      renamed = slots.map (Slot.mapOperations (rename f)) := by
  induction slots generalizing renamed with
  | nil => simp [renameSlots, eq_comm]
  | cons slot slots ih =>
    rw [renameSlots, renameList_eq]
    simp only [bind_eq_ok_iff, ofOperations_rename_eq_ok_iff, ih, List.forall_mem_cons,
      List.map_cons]
    constructor
    · rintro ⟨_, ⟨hslot, rfl⟩, _, ⟨hlater, rfl⟩, h⟩
      cases h
      exact ⟨⟨hslot, hlater⟩, rfl⟩
    · rintro ⟨⟨hslot, hlater⟩, rfl⟩
      exact ⟨_, ⟨hslot, rfl⟩, _, ⟨hlater, rfl⟩, rfl⟩

/-- An instruction whose body can be renamed as the plain map does it, is renamed so. -/
theorem rename_eq_carry {op : Instruction}
    (h : ∀ inner, body? op = some inner →
      renameSlots f inner = .ok (carrySlots f (fun _ => none) inner)) :
    op.rename f = op.carry f fun _ => none := by
  rcases op with ⟨name, rs, reads, writes, _ | ⟨slots, serial⟩⟩
  · rfl
  · rw [rename, renameBody, h slots rfl]
    rfl

/-- Where operations stay apart at all depths, renaming is the plain map. -/
theorem renameSlots_eq_carrySlots (h : Throughout (Slot.Apart f) slots) :
    renameSlots f slots = .ok (carrySlots f (fun _ => none) slots) := by
  induction h with
  | @intro slots here _ ih =>
    refine renameSlots_eq_ok_iff.2 ⟨here, ?_⟩
    rw [carrySlots_eq]
    refine List.map_congr_left fun slot hslot => Slot.mapOperations_congr fun op hop => ?_
    exact (rename_eq_carry (ih slot hslot op hop)).symm

end Instruction

/-- A schedule can be renamed exactly when the operations of each of its slots stay apart. -/
theorem Schedule.rename_eq_ok_iff {s s' : Schedule Instruction} {f : Resource → Resource} :
    s.rename f = .ok s' ↔ (∀ slot ∈ s.slots, slot.Apart f) ∧
      s' = ⟨s.slots.map (Slot.mapOperations (Instruction.rename f)), s.acceptance⟩ := by
  rw [Schedule.rename, bind_eq_ok_iff]
  simp only [Instruction.renameSlots_eq_ok_iff]
  constructor
  · rintro ⟨_, ⟨hslots, rfl⟩, h⟩
    cases h
    exact ⟨hslots, rfl⟩
  · rintro ⟨hslots, rfl⟩
    exact ⟨_, ⟨hslots, rfl⟩, rfl⟩

/-- Where operations stay apart at all depths, the result has the slots of the plain map. -/
theorem Schedule.rename_eq_ok {s : Schedule Instruction} {f : Resource → Resource}
    (h : Throughout (Slot.Apart f) s.slots) :
    s.rename f = .ok ⟨Instruction.carrySlots f (fun _ => none) s.slots, s.acceptance⟩ := by
  rw [Schedule.rename, Instruction.renameSlots_eq_carrySlots h]
  rfl

end Timetable
