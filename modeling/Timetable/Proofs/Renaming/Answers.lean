import Timetable.Proofs.Partition.LeastFirst
import Timetable.Proofs.Renaming.Searches
import Timetable.Proofs.Renaming.Thorough
import Timetable.Schedule.Selection

/-!
# A renamed schedule answers renamed questions

A scan for blockers cuts off the new names of what it cuts off, and chains of resources that are
used together become chains of the new names. Together with the searches and the reach of a frontier
this gives the renamed answers to the questions that are asked of a renamed schedule.

* `Renames.ScanRenamed`: scans that have found the same operations, changed and unchanged.
* `Renames.operationsUntilBlocked_eq`: operations up to where blockers cut a frontier off.
* `Renames.linked_iff`, `Renames.components`: classes of linked resources under new names.
* `AnswersUnder`: a schedule that answers renamed questions with renamed answers.
* `rename_answersUnder`: a renamed schedule is one.
-/

namespace Timetable

variable {ω : Type} [Operation ω]

namespace Renames

variable {f : Resource → Resource} {m : ω → ω} {slots : List (Slot ω)}

/-! ### Until blocked -/

/-- The second scan has found the changed operations and has cut off the new names. -/
structure ScanRenamed (f : Resource → Resource) (m : ω → ω) (s t : Scan ω) : Prop where
  found_eq : t.found = s.found.map fun e => (e.1, m e.2)
  blocked_eq : ∀ r, t.blocked.contains (f r) = s.blocked.contains r

section Scans

variable {s t : Scan ω} {start : Frontier} {blocks blocks' : ω → Bool} {index : Nat}

/-- One scan looks at an operation, the other one at the changed operation. -/
theorem look (h : Renames f m slots) (hst : ScanRenamed f m s t) {op : ω}
    (hop : blocks' (m op) = blocks op) :
    ScanRenamed f m (s.look start blocks index op)
      (t.look (start.mapKeys f) blocks' index (m op)) := by
  have hcut : ((resources op).map f).any t.blocked.contains
      = (resources op).any s.blocked.contains := by
    rw [List.any_map]
    exact congrArg (resources op).any (funext hst.blocked_eq)
  have hbegun : (((resources op).map f).any fun r =>
      ((start.mapKeys f).get? r).any (· ≤ index))
        = (resources op).any fun r => (start.get? r).any (· ≤ index) := by
    rw [List.any_map]
    refine congrArg (resources op).any (funext fun r => ?_)
    rw [Function.comp_apply, SortedMap.get?_mapKeys h.injective]
  rw [Scan.look, Scan.look, h.resources_eq, hop, hcut, hbegun]
  split
  · refine ⟨hst.found_eq, fun r => ?_⟩
    have hiff := hst.blocked_eq r
    rw [Bool.eq_iff_iff, SortedSet.contains_iff, SortedSet.contains_iff] at hiff ⊢
    rw [SortedSet.mem_insertAll, SortedSet.mem_insertAll, hiff,
      List.mem_map_of_injective h.injective]
  · split
    · exact ⟨by simp [hst.found_eq], hst.blocked_eq⟩
    · exact hst

/-- All operations of a slot. -/
theorem foldl_look (h : Renames f m slots) (hst : ScanRenamed f m s t) {ops : List ω}
    (hops : ∀ op ∈ ops, blocks' (m op) = blocks op) :
    ScanRenamed f m (ops.foldl (Scan.look start blocks index) s)
      ((ops.map m).foldl (Scan.look (start.mapKeys f) blocks' index) t) := by
  rw [List.foldl_map]
  exact List.foldl_rel hst fun op hop s t hst => h.look hst (hops op hop)

/-- Slots, up to where every resource is cut off. -/
theorem run (h : Renames f m slots) (hst : ScanRenamed f m s t) {numbered : List (Slot ω × Nat)}
    (hnumbered : ∀ e ∈ numbered, ∀ op ∈ e.1.operations, blocks' (m op) = blocks op) :
    ScanRenamed f m (Scan.run start blocks s numbered)
      (Scan.run (start.mapKeys f) blocks' t
        (numbered.map fun e => (e.1.mapOperations m, e.2))) := by
  induction numbered generalizing s t with
  | nil => exact hst
  | cons e numbered ih =>
    obtain ⟨he, hrest⟩ := List.forall_mem_cons.1 hnumbered
    obtain ⟨slot, index⟩ := e
    have hnext : ScanRenamed f m (slot.operations.foldl (Scan.look start blocks index) s)
        ((slot.operations.map m).foldl (Scan.look (start.mapKeys f) blocks' index) t) :=
      h.foldl_look hst he
    have hall : (start.mapKeys f).keys.all
          ((slot.operations.map m).foldl
            (Scan.look (start.mapKeys f) blocks' index) t).blocked.contains
        = start.keys.all
          (slot.operations.foldl (Scan.look start blocks index) s).blocked.contains := by
      rw [Bool.eq_iff_iff, List.all_eq_true, List.all_eq_true]
      simp only [SortedMap.mem_keys_mapKeys h.injective, forall_exists_index, and_imp,
        forall_apply_eq_imp_iff₂, hnext.blocked_eq]
    simp only [List.map_cons, Scan.run, Slot.operations_mapOperations, hall]
    split
    · exact hnext
    · exact ih hnext hrest

end Scans

/-- Blockers cut off a frontier under new names where they cut off the frontier, and the operations
that are found before are the changed ones. -/
theorem operationsUntilBlocked_eq (h : Renames f m slots) {start : Frontier}
    {blocks blocks' : ω → Bool}
    (hblocks : ∀ op ∈ slots.flatMap Slot.operations, blocks' (m op) = blocks op) :
    operationsUntilBlocked (renamedBy m slots) (start.mapKeys f) blocks' =
      (operationsUntilBlocked slots start blocks).map fun e => (e.1, m e.2) := by
  rw [operationsUntilBlocked, operationsUntilBlocked, SortedMap.min?_values_mapKeys h.injective]
  cases start.values.min? with
  | none => rfl
  | some least =>
    have hnumbered : (renamedBy m slots).zipIdx.drop least =
        (slots.zipIdx.drop least).map fun e => (e.1.mapOperations m, e.2) := by
      rw [renamedBy, List.zipIdx_map, List.map_drop]
      rfl
    dsimp only
    rw [hnumbered]
    refine (h.run ⟨rfl, fun _ => rfl⟩ fun e he op hop => hblocks op ?_).found_eq
    have hslot := List.fst_mem_of_mem_zipIdx (List.mem_of_mem_drop he)
    exact List.mem_flatMap.2 ⟨e.1, hslot, hop⟩

/-! ### Independent resources -/

/-- Chains of new names are those of the resources. -/
theorem linked_iff (h : Renames f m slots) {ops : List ω} {r r' : Resource} :
    Linked (ops.map m) (f r) r' ↔ ∃ x, f x = r' ∧ Linked ops r x := by
  constructor
  · intro hlinked
    induction hlinked with
    | refl => exact ⟨r, rfl, .refl⟩
    | tail _ hstep ih =>
      obtain ⟨x, rfl, hchain⟩ := ih
      obtain ⟨op', hop', hx, hy'⟩ := hstep
      obtain ⟨op, hop, rfl⟩ := List.mem_map.1 hop'
      rw [h.resources_eq] at hy'
      obtain ⟨y, hy, rfl⟩ := List.mem_map.1 hy'
      exact ⟨y, rfl, hchain.tail ⟨op, hop, h.mem_resources_iff.1 hx, hy⟩⟩
  · rintro ⟨x, rfl, hchain⟩
    have hstep : ∀ a b, Together ops a b → Together (ops.map m) (f a) (f b) := by
      rintro a b ⟨op, hop, ha, hb⟩
      exact ⟨m op, List.mem_map_of_mem hop, h.mem_resources_iff.2 ha, h.mem_resources_iff.2 hb⟩
    exact Relation.ReflTransGen.lift f hstep _ _ hchain

/-- Classes under new names are classes of the changed operations. -/
theorem components (h : Renames f m slots) {ops : List ω} {classes : List (SortedSet Resource)}
    (hclasses : Components ops classes) :
    Components (ops.map m) (classes.map (SortedSet.image f)) := by
  constructor
  · refine List.pairwise_map.2 (hclasses.disjoint.imp fun {a b} hab r hra hrb => ?_)
    obtain ⟨x, hx, rfl⟩ := SortedSet.mem_image.1 hra
    obtain ⟨y, hy, hxy⟩ := SortedSet.mem_image.1 hrb
    exact hab x hx (h.injective hxy ▸ hy)
  · intro r r'
    simp only [List.mem_map, exists_exists_and_eq_and, SortedSet.mem_image]
    constructor
    · rintro ⟨c, hc, ⟨x, hx, rfl⟩, y, hy, rfl⟩
      obtain ⟨⟨op, hop, hxop⟩, hchain⟩ := hclasses.exists_mem_iff.1 ⟨c, hc, hx, hy⟩
      exact ⟨⟨op, hop, h.mem_resources_iff.2 hxop⟩, h.linked_iff.2 ⟨y, rfl, hchain⟩⟩
    · rintro ⟨⟨op, hop, hr⟩, hlinked⟩
      rw [h.resources_eq] at hr
      obtain ⟨x, hx, rfl⟩ := List.mem_map.1 hr
      obtain ⟨y, rfl, hchain⟩ := h.linked_iff.1 hlinked
      obtain ⟨c, hc, hxc, hyc⟩ := hclasses.exists_mem_iff.2 ⟨⟨op, hop, hx⟩, hchain⟩
      exact ⟨c, hc, ⟨x, hxc, rfl⟩, y, hyc, rfl⟩

theorem independentResources_perm (h : Renames f m slots) :
    (independentResources (renamedBy m slots)).Perm
      ((independentResources slots).map (SortedSet.image f)) := by
  have hops : (renamedBy m slots).flatMap Slot.operations
      = (slots.flatMap Slot.operations).map m := by
    rw [renamedBy, List.flatMap_map, List.map_flatMap]
    rfl
  have hnew := components_independentResources h.sound_renamedBy
  rw [hops] at hnew
  refine hnew.perm (h.components (components_independentResources h.sound))
    exists_mem_of_mem_independentResources fun c hc => ?_
  obtain ⟨d, hd, rfl⟩ := List.mem_map.1 hc
  obtain ⟨r, hr⟩ := exists_mem_of_mem_independentResources d hd
  exact ⟨f r, SortedSet.mem_image.2 ⟨r, hr, rfl⟩⟩

end Renames

/-! ### All questions -/

open Instruction

/-- The second schedule is the first one with `f` applied at all depths, the rules of bodies left
aside, and to renamed questions it gives the renamed answers. -/
structure AnswersUnder (f : Resource → Resource) (s s' : Schedule Instruction) : Prop where
  unruled_eq : unruled s'.slots = unruled (relabelled f s.slots)
  operationAt?_eq : ∀ r i, s'.operationAt? (f r) i = (s.operationAt? r i).map (rename f)
  nextSlot_eq : ∀ rs start distance,
    nextSlot s'.slots (rs.map f) start distance = nextSlot s.slots rs start distance
  prevSlot_eq : ∀ rs stop distance,
    prevSlot s'.slots (rs.map f) stop distance = prevSlot s.slots rs stop distance
  nextUses_eq : ∀ rs start,
    nextUses s'.slots (rs.map f) start = (nextUses s.slots rs start).mapKeys f
  independentResources_perm : (independentResources s'.slots).Perm
    ((independentResources s.slots).map (SortedSet.image f))
  reachableFrontier_eq : ∀ (start : Frontier) (blocks blocks' : Instruction → Bool),
    (∀ op ∈ s.operations, blocks' (op.rename f) = blocks op) →
    reachableFrontier s'.slots (start.mapKeys f) blocks' =
      (reachableFrontier s.slots start blocks).mapKeys f
  operationsUntilBlocked_eq : ∀ (start : Frontier) (blocks blocks' : Instruction → Bool),
    (∀ op ∈ s.operations, blocks' (op.rename f) = blocks op) →
    operationsUntilBlocked s'.slots (start.mapKeys f) blocks' =
      (operationsUntilBlocked s.slots start blocks).map fun e => (e.1, e.2.rename f)

/-- **Renamed schedules answer renamed questions.** A schedule can be renamed by every function that
keeps resources apart, whatever that does to their order, and the result gives the answers of the
schedule under the new names. -/
theorem rename_answersUnder {s : Schedule Instruction} (hs : Throughout Slot.Sound s.slots)
    {f : Resource → Resource} (hf : Function.Injective f) :
    ∃ s', s.rename f = .ok s' ∧ AnswersUnder f s s' := by
  have hok := Schedule.rename_eq_ok (hs.mono fun _ h => h.apart hf)
  have hslots : carrySlots f (fun _ => none) s.slots = renamedBy (rename f) s.slots :=
    congrArg Schedule.slots (Schedule.rename_eq_ok_iff.1 hok).2
  have h : Renames f (rename f) s.slots := ⟨hs.here, hf, resources_rename⟩
  refine ⟨⟨renamedBy (rename f) s.slots, s.acceptance⟩, hslots ▸ hok, ?_⟩
  exact {
    unruled_eq := by rw [← hslots, relabelled, unruled_carrySlots, unruled_carrySlots]
    operationAt?_eq := h.operationAt?_eq rfl rfl
    nextSlot_eq := h.nextSlot_eq
    prevSlot_eq := h.prevSlot_eq
    nextUses_eq := h.nextUses_eq
    independentResources_perm := h.independentResources_perm
    reachableFrontier_eq := fun _ _ _ hblocks => h.reachableFrontier_eq hblocks
    operationsUntilBlocked_eq := fun _ _ _ hblocks => h.operationsUntilBlocked_eq hblocks }

/-- A body with two resources in use, one of them used again behind it, and a renaming that turns
the order of resources round. -/
theorem rename_answersUnder_reversed :
    let a : Instruction := { name := "a", resources := [.line 1] }
    let b : Instruction := { name := "b", resources := [.line 2] }
    let c : Instruction := { name := "c", resources := [.line 2, .line 3] }
    let s := Schedule.ofSlots [slotOf [nesting "sub" [[a], [b]]], slotOf [c]]
    let f : Resource → Resource := fun r => match r with
      | .line i => .line (-i)
      | r => r
    Throughout Slot.Sound s.slots ∧ Function.Injective f ∧
      ∃ s', s.rename f = .ok s' ∧ AnswersUnder f s s' := by
  intro a b c s f
  have hs : s.Sound := by
    refine List.forall_mem_cons.2 ⟨Slot.sound_ofApart (by decide), ?_⟩
    exact List.forall_mem_singleton.2 (Slot.sound_ofApart (by decide))
  have hmade : ∀ op ∈ s.operations, op.Made := by
    refine List.forall_mem_cons.2 ⟨.nesting "sub" (by decide) ?_, ?_⟩
    · refine List.forall_mem_cons.2 ⟨.plain "a" [.line 1], ?_⟩
      exact List.forall_mem_singleton.2 (.plain "b" [.line 2])
    · exact List.forall_mem_singleton.2 (.plain "c" [.line 2, .line 3])
  have hf : Function.Injective f := by
    refine Function.LeftInverse.injective (g := f) fun r => ?_
    cases r <;> simp [f]
  have hdeep := throughout_sound_of_made hs hmade
  exact ⟨hdeep, hf, rename_answersUnder hdeep hf⟩

end Timetable
