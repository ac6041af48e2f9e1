import Timetable.Instruction
import Timetable.Proofs.Merge.Zip
import Timetable.Proofs.Partition.Classes
import Timetable.Proofs.Schedule.Insertion

/-!
# Factors make up the whole

Each operation that acts on some resource acts on those of exactly one class, so it is in exactly
one factor. The factors of a schedule have its length, and in each slot they hold together what the
schedule holds there. No resource is named twice among them, so they can be zipped.

* `flatMap_filter_perm`: a list sorted into parts.
* `Schedule.Parts`: schedules that make up a schedule slot by slot.
* `Schedule.parts_factorize`: the factors do.
* `Schedule.Parts.zipAll`: what makes up a schedule can be zipped to it.
* `zipAll_factorize`: the theorem.
-/

namespace Timetable

variable {ω : Type}

/-! ### Sorting a list into parts -/

theorem flatMap_ite_singleton {α κ : Type} (p : κ → Bool) (cs : List κ) (a : α) :
    (cs.flatMap fun c => if p c then [a] else []) = List.replicate (cs.countP p) a := by
  induction cs with
  | nil => rfl
  | cons c cs ih =>
    rw [List.flatMap_cons, ih, List.countP_cons]
    by_cases h : p c = true
    · rw [if_pos h, if_pos h, List.replicate_succ, List.singleton_append]
    · rw [if_neg h, if_neg h, List.nil_append, Nat.add_zero]

/-- Where each item belongs to exactly one part, the parts together are the whole. -/
theorem flatMap_filter_perm {α κ : Type} (p : κ → α → Bool) (cs : List κ) {l : List α}
    (h : ∀ a ∈ l, cs.countP (fun c => p c a) = 1) :
    (cs.flatMap fun c => l.filter (p c)).Perm l := by
  induction l with
  | nil => simp
  | cons a l ih =>
    obtain ⟨ha, h⟩ := List.forall_mem_cons.1 h
    have hsplit : (cs.flatMap fun c => (a :: l).filter (p c))
        = cs.flatMap fun c => (if p c a then [a] else []) ++ l.filter (p c) := by
      refine List.flatMap_congr fun c _ => ?_
      rw [List.filter_cons]
      split <;> rfl
    have hone : (cs.flatMap fun c => if p c a then [a] else []) = [a] := by
      rw [flatMap_ite_singleton, ha]
      rfl
    rw [hsplit]
    refine (List.flatMap_append_perm cs _ _).symm.trans ?_
    rw [hone]
    exact (ih h).cons a

/-! ### Factors -/

variable [Operation ω]

theorem operationsAt_map_project (slots : List (Slot ω)) (rs : List Resource) (x : Nat) :
    operationsAt (slots.map fun slot => slot.project rs) x
      = (operationsAt slots x).filter (Slot.actsOnAny rs) := by
  rw [operationsAt, operationsAt, List.getElem?_map]
  cases slots[x]? <;> rfl

namespace Schedule

/-- The schedules `parts` make up `s`: they are of its length, and in each slot they hold together
what it holds. -/
structure Parts (s : Schedule ω) (parts : List (Schedule ω)) : Prop where
  ne_nil : parts ≠ []
  sound : ∀ part ∈ parts, part.Sound
  length_eq : ∀ part ∈ parts, part.length = s.length
  content : ∀ x, (parts.flatMap fun part => operationsAt part.slots x).Perm (operationsAt s.slots x)

theorem parts_self {s : Schedule ω} (hs : s.Sound) : s.Parts [s] where
  ne_nil := List.cons_ne_nil s []
  sound := by simpa using hs
  length_eq := by simp
  content x := by rw [List.flatMap_singleton]

/-- The projections to the classes of linked resources. -/
theorem parts_project {s : Schedule ω} (hs : s.Sound)
    (hacts : ∀ op ∈ s.operations, resources op ≠ []) {classes : List (SortedSet Resource)}
    (hclasses : Components s.operations classes) (hne : classes ≠ []) :
    s.Parts (classes.map fun c => { s with slots := s.slots.map fun slot => slot.project c.toList })
    where
  ne_nil := by simpa using hne
  sound part hpart := by
    obtain ⟨c, -, rfl⟩ := List.mem_map.1 hpart
    intro slot hslot
    obtain ⟨old, hold, rfl⟩ := List.mem_map.1 hslot
    exact (hs old hold).filter _
  length_eq part hpart := by
    obtain ⟨c, -, rfl⟩ := List.mem_map.1 hpart
    exact List.length_map _
  content x := by
    rw [List.flatMap_map]
    simp only [operationsAt_map_project]
    apply flatMap_filter_perm
    intro op hop
    obtain ⟨slot, hslot, hmem⟩ := mem_operationsAt.1 hop
    have hops : op ∈ s.operations := List.mem_flatMap.2 ⟨slot, List.mem_of_getElem? hslot, hmem⟩
    exact hclasses.countP_actsOnAny hops (hacts op hops)

/-- The factors of a schedule make it up. -/
theorem parts_factorize {s : Schedule ω} (hs : s.Sound)
    (hacts : ∀ op ∈ s.operations, resources op ≠ []) (hne : s.operations ≠ []) :
    s.Parts s.factorize := by
  have hclasses := components_independentResources hs
  obtain ⟨op, hop⟩ := List.exists_mem_of_ne_nil _ hne
  obtain ⟨r, hr⟩ := List.exists_mem_of_ne_nil _ (hacts op hop)
  obtain ⟨c, hc, -⟩ := hclasses.exists_mem_iff.2 ⟨⟨op, hop, hr⟩, .refl⟩
  rw [factorize, factorSlots?]
  split
  · exact parts_self hs
  · rename_i hsome
    split at hsome
    · cases hsome
    · cases hsome
      rw [List.map_map]
      exact parts_project hs hacts hclasses (List.ne_nil_of_mem hc)

/-- What makes up a schedule can be zipped, and becomes the schedule again. -/
theorem Parts.zipAll {s : Schedule ω} {parts : List (Schedule ω)} (h : s.Parts parts)
    (hs : s.Sound) (align : Alignment) :
    ∃ t, Schedule.zipAll parts align = .ok t ∧ t.Sound ∧ t.length = s.length ∧
      ∀ x, (operationsAt t.slots x).Perm (operationsAt s.slots x) := by
  have hne : parts.map slots ≠ [] := by simpa using h.ne_nil
  have hlengths : ∀ source ∈ parts.map slots, source.length = s.length := by
    intro source hsource
    obtain ⟨part, hpart, rfl⟩ := List.mem_map.1 hsource
    exact h.length_eq part hpart
  have hlongest := longest_of_lengths hne hlengths
  have hmeet : ∀ x, ((linedUp (parts.map slots) align x).flatMap Slot.operations).Perm
      (operationsAt s.slots x) := by
    intro x
    rw [flatMap_linedUp hne hlengths, List.flatMap_map]
    exact h.content x
  have hsound : ∀ source ∈ parts.map slots, ∀ slot ∈ source, slot.Sound := by
    intro source hsource
    obtain ⟨part, hpart, rfl⟩ := List.mem_map.1 hsource
    exact h.sound part hpart
  have hnd : ∀ x < longest (parts.map slots),
      (((linedUp (parts.map slots) align x).flatMap Slot.operations).flatMap resources).Nodup := by
    intro x hx
    rw [hlongest] at hx
    refine ((hmeet x).flatMap_right resources).nodup_iff.2 ?_
    rw [operationsAt_of_getElem? (List.getElem?_eq_getElem hx)]
    exact (hs _ (List.getElem_mem hx)).usesOnce
  obtain ⟨merged, hmerged, hlength, hmsound, hops⟩ := zip_eq_ok hsound hnd
  rw [hlongest] at hlength hops
  refine ⟨ofSlots merged, ?_, hmsound, hlength, fun x => ?_⟩
  · rw [Schedule.zipAll, hmerged]
    rfl
  · rcases Nat.lt_or_ge x s.length with hx | hx
    · show (operationsAt merged x).Perm _
      rw [hops x hx]
      exact hmeet x
    · show (operationsAt merged x).Perm _
      rw [operationsAt_of_length_le (hlength.trans_le hx), operationsAt_of_length_le hx]

end Schedule

/-- Factorizing and zipping back is the identity: the factors of a schedule can be zipped, lined up
by either end, and each slot of the result holds exactly what it held, each operation once. -/
theorem zipAll_factorize {s : Schedule ω} (hs : s.Sound)
    (hacts : ∀ op ∈ s.operations, resources op ≠ []) (hne : s.operations ≠ [])
    (align : Alignment) :
    ∃ t, Schedule.zipAll s.factorize align = .ok t ∧ t.Sound ∧ t.length = s.length ∧
      ∀ x, (operationsAt t.slots x).Perm (operationsAt s.slots x) :=
  (Schedule.parts_factorize hs hacts hne).zipAll hs align

/-- A schedule of two factors, each of which is idle in some slot. -/
theorem zipAll_factorize_two_factors :
    let a : Instruction := { name := "a", resources := [.line 0, .line 1] }
    let b : Instruction := { name := "b", resources := [.line 2] }
    let c : Instruction := { name := "c", resources := [.line 1] }
    let slotAB : Slot Instruction :=
      ⟨[a, b], ((SortedMap.insert ∅ (.line 0) 0).insert (.line 1) 0).insert (.line 2) 1⟩
    let slotB : Slot Instruction := ⟨[b], SortedMap.insert ∅ (.line 2) 0⟩
    let slotC : Slot Instruction := ⟨[c], SortedMap.insert ∅ (.line 1) 0⟩
    let s := Schedule.ofSlots [slotAB, slotB, slotC]
    (s.Sound ∧ (∀ op ∈ s.operations, resources op ≠ []) ∧ s.operations ≠ []) ∧
      s.factorize.length = 2 ∧
      ∃ t, Schedule.zipAll s.factorize .right = .ok t ∧ t.Sound ∧ t.length = s.length ∧
        ∀ x, (operationsAt t.slots x).Perm (operationsAt s.slots x) := by
  intro a b c slotAB slotB slotC s
  have hab : slotAB.Sound := Slot.Sound.ofOperations (rfl : Slot.ofOperations [a, b] = .ok slotAB)
  have hb : slotB.Sound := Slot.Sound.ofOperations (rfl : Slot.ofOperations [b] = .ok slotB)
  have hc : slotC.Sound := Slot.Sound.ofOperations (rfl : Slot.ofOperations [c] = .ok slotC)
  have hs : s.Sound := by
    show ∀ slot ∈ [slotAB, slotB, slotC], slot.Sound
    simp [hab, hb, hc]
  have hacts : ∀ op ∈ s.operations, resources op ≠ [] := by
    show ∀ op ∈ [a, b, b, c], op.resources ≠ []
    simp [a, b, c]
  have hne : s.operations ≠ [] := List.cons_ne_nil a [b, b, c]
  exact ⟨⟨hs, hacts, hne⟩, by decide +kernel, zipAll_factorize hs hacts hne .right⟩

end Timetable
