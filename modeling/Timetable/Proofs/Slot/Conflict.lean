import Timetable.Proofs.Slot.Sound

/-!
# Conflicts

Two operations conflict when their order matters: when they act on a common resource, or when one
reads a key that the other writes. A key that both only read, or both only write, is no conflict.

* `SharesResource`, `SharesKey`, `Conflict`: the relations.
* `Conflict.sharesResource`: without keys only resources count.
* `Slot.Sound.touches_iff_sharesResource`, `Slot.orderedAgainst_footprint_iff`: what a slot says of
  an operation is what one of its operations says.
-/

namespace Timetable

variable {ω : Type} [Operation ω]

def SharesResource (a b : ω) : Prop := ∃ r ∈ resources a, r ∈ resources b

/-- One of the operations reads a key that the other one writes. -/
def SharesKey (a b : ω) : Prop :=
  (∃ k, k ∈ (footprint a).reads ∧ k ∈ (footprint b).writes) ∨
    ∃ k, k ∈ (footprint a).writes ∧ k ∈ (footprint b).reads

/-- The order of the operations matters. -/
def Conflict (a b : ω) : Prop := SharesResource a b ∨ SharesKey a b

/-! ### Both ways round -/

theorem SharesResource.symm {a b : ω} (h : SharesResource a b) : SharesResource b a := by
  obtain ⟨r, ha, hb⟩ := h
  exact ⟨r, hb, ha⟩

theorem SharesKey.symm {a b : ω} (h : SharesKey a b) : SharesKey b a := by
  rcases h with ⟨k, ha, hb⟩ | ⟨k, ha, hb⟩
  · exact .inr ⟨k, hb, ha⟩
  · exact .inl ⟨k, hb, ha⟩

theorem Conflict.symm {a b : ω} (h : Conflict a b) : Conflict b a :=
  Or.imp SharesResource.symm SharesKey.symm h

/-! ### What slots say of an operation -/

namespace Footprint

theorem orderedAgainst_iff {f g : Footprint} :
    f.orderedAgainst g = true ↔
      (∃ k, k ∈ f.reads ∧ k ∈ g.writes) ∨ ∃ k, k ∈ f.writes ∧ k ∈ g.reads := by
  rw [orderedAgainst, Bool.or_eq_true, readsFrom, writesTo, meets_iff, meets_iff]

theorem orderedAgainst_merge {f g h : Footprint} :
    f.orderedAgainst (g.merge h) = true ↔
      f.orderedAgainst g = true ∨ f.orderedAgainst h = true := by
  simp only [orderedAgainst_iff, merge, SortedSet.mem_union, and_or_left, exists_or]
  exact or_or_or_comm

theorem orderedAgainst_foldl_merge {f g : Footprint} {ops : List ω} :
    f.orderedAgainst (ops.foldl (fun g op => g.merge (Operation.footprint op)) g) = true ↔
      f.orderedAgainst g = true ∨ ∃ a ∈ ops, f.orderedAgainst (Operation.footprint a) = true := by
  induction ops generalizing g with
  | nil => simp
  | cons op ops ih =>
    rw [List.foldl_cons, ih, orderedAgainst_merge, List.exists_mem_cons_iff, or_assoc]

end Footprint

theorem sharesKey_iff {a b : ω} :
    SharesKey a b ↔ (footprint b).orderedAgainst (footprint a) = true := by
  rw [Footprint.orderedAgainst_comm, Footprint.orderedAgainst_iff]
  rfl

instance (a b : ω) : Decidable (SharesResource a b) :=
  inferInstanceAs (Decidable (∃ r ∈ resources a, r ∈ resources b))

instance (a b : ω) : Decidable (SharesKey a b) := decidable_of_iff _ sharesKey_iff.symm

instance (a b : ω) : Decidable (Conflict a b) :=
  inferInstanceAs (Decidable (SharesResource a b ∨ SharesKey a b))

theorem Footprint.not_mem_of_isEmpty {f : Footprint} (h : f.isEmpty = true) (k : Key) :
    k ∉ f.reads ∧ k ∉ f.writes := by
  rw [isEmpty, Bool.and_eq_true, SortedSet.isEmpty, SortedSet.isEmpty, List.isEmpty_iff,
    List.isEmpty_iff] at h
  constructor
  · intro hk
    exact absurd (h.1 ▸ hk : k ∈ ([] : List Key)) List.not_mem_nil
  · intro hk
    exact absurd (h.2 ▸ hk : k ∈ ([] : List Key)) List.not_mem_nil

/-- An operation without keys conflicts only where it shares a resource. -/
theorem Conflict.sharesResource {a b : ω} (h : Conflict a b)
    (hb : (footprint b).isEmpty = true) : SharesResource a b := by
  rcases h with h | ⟨k, -, hk⟩ | ⟨k, -, hk⟩
  · exact h
  · exact absurd hk (Footprint.not_mem_of_isEmpty hb k).2
  · exact absurd hk (Footprint.not_mem_of_isEmpty hb k).1

namespace Slot

/-- The keys of a slot order an operation exactly when those of one of its operations do. -/
theorem orderedAgainst_footprint_iff {slot : Slot ω} {op : ω} :
    (Operation.footprint op).orderedAgainst slot.footprint = true ↔
      ∃ a ∈ slot.operations, SharesKey a op := by
  rw [footprint, Footprint.orderedAgainst_foldl_merge]
  simp only [sharesKey_iff]
  refine or_iff_right fun h => ?_
  rcases Footprint.orderedAgainst_iff.1 h with ⟨k, -, hk⟩ | ⟨k, -, hk⟩
  · exact SortedSet.not_mem_empty k hk
  · exact SortedSet.not_mem_empty k hk

theorem Sound.touches_iff_sharesResource {slot : Slot ω} (hs : slot.Sound) {op : ω} :
    slot.touches (resources op) = true ↔ ∃ a ∈ slot.operations, SharesResource a op :=
  hs.touches_iff

/-- Different operations of a sound slot share no resource. -/
theorem Sound.pairwise_not_shares {slot : Slot ω} (hs : slot.Sound) :
    slot.operations.Pairwise fun a b => ¬SharesResource a b := by
  refine (List.nodup_flatMap.1 hs.usesOnce).2.imp ?_
  intro a b hdisj h
  obtain ⟨r, ha, hb⟩ := h
  exact hdisj ha hb

end Slot

end Timetable
