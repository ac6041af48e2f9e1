import Timetable.Ordered.Place
import Timetable.Proofs.Queue.Related
import Mathlib.Data.List.Induction

/-!
# The order in which a queue serves

Pairs that have arrived at a queue are served in the order of their keys, and those of one key in
the order in which they have arrived. Where duplicates are dropped, the first arrival of a pair is
the one that counts.

* `ComesBefore`: up to some place of a list the first item has come and the second one has not.
* `ComesBefore.exists_le`: in lists joined in the order of their keys the key says which is first.
* `Arrivals.pairwise_foldl_enqueue`, `Arrivals.pairwise_drain`: the order of what waits, and the
  order in which it leaves.
* `BucketQueue.pairwise_drain`: the order in which a bucket queue serves.
-/

namespace Timetable

/-! ### First arrivals -/

section First

variable {α : Type} {l m : List α} {a b : α}

/-- Up to some place of the list, `a` has come and `b` has not. -/
def ComesBefore (l : List α) (a b : α) : Prop := ∃ front, front <+: l ∧ a ∈ front ∧ b ∉ front

theorem ComesBefore.ne (h : ComesBefore l a b) : a ≠ b := by
  obtain ⟨front, -, ha, hb⟩ := h
  intro heq
  exact hb (heq ▸ ha)

theorem ComesBefore.append (h : ComesBefore l a b) (m : List α) : ComesBefore (l ++ m) a b := by
  obtain ⟨front, hfront, ha, hb⟩ := h
  exact ⟨front, hfront.trans (List.prefix_append l m), ha, hb⟩

/-- What comes before an item of one of the joined lists is in that list, or in one of a smaller
key. -/
theorem ComesBefore.exists_le {κ : Type} [Ord κ] {keys : List κ} {f : κ → List α}
    (hkeys : Ordered.Increasing id keys) (h : ComesBefore (keys.flatMap f) a b) {k : κ}
    (hk : k ∈ keys) (hb : b ∈ f k) : ∃ j ∈ keys, (compare j k = .lt ∨ j = k) ∧ a ∈ f j := by
  obtain ⟨front, hfront, ha, hbfront⟩ := h
  obtain ⟨before, after, rfl⟩ := List.append_of_mem hk
  have hsplit : (before ++ k :: after).flatMap f =
      (before ++ [k]).flatMap f ++ after.flatMap f := by
    rw [← List.flatMap_append, List.append_assoc, List.singleton_append]
  have hhere : b ∈ (before ++ [k]).flatMap f := List.mem_flatMap.2 ⟨k, by simp, hb⟩
  -- The lists up to that of `k` hold `b`, so the front ends inside them.
  have hinside : front <+: (before ++ [k]).flatMap f := by
    rw [hsplit] at hfront
    rcases List.prefix_or_prefix_of_prefix hfront (List.prefix_append _ _) with hle | hle
    · exact hle
    · exact absurd (hle.subset hhere) hbfront
  obtain ⟨j, hj, haj⟩ := List.mem_flatMap.1 (hinside.subset ha)
  rcases List.mem_append.1 hj with hj | hj
  · have hlt := (List.pairwise_append.1 hkeys).2.2 j hj k List.mem_cons_self
    exact ⟨j, List.mem_append_left _ hj, .inl hlt, haj⟩
  · exact ⟨j, List.mem_singleton.1 hj ▸ hk, .inr (List.mem_singleton.1 hj), haj⟩

end First

variable {α : Type}

namespace Arrivals

/-- What waits stands in the order in which it has come first. -/
theorem pairwise_foldl_enqueue [BEq α] [LawfulBEq α] (l : List (Nat × α)) :
    (l.foldl (fun waiting e => (enqueue true waiting e.1 e.2).2) []).Pairwise (ComesBefore l) := by
  induction l using List.reverseRecOn with
  | nil => exact List.Pairwise.nil
  | append_singleton l e ih =>
    have hold := ih.imp fun h => h.append [e]
    rw [List.foldl_append, List.foldl_cons, List.foldl_nil, enqueue, Bool.true_and]
    split
    · exact hold
    · rename_i hnew
      rw [List.contains_iff_mem, mem_foldl_enqueue] at hnew
      refine List.pairwise_append.2 ⟨hold, List.pairwise_singleton _ _, fun a ha b hb => ?_⟩
      rw [List.mem_singleton.1 hb]
      exact ⟨l, List.prefix_append l [e], mem_foldl_enqueue.1 ha, hnew⟩

/-- Pairs leave in the order of their keys, and pairs of one key as they stand in the list. -/
theorem pairwise_drain {R : Nat × α → Nat × α → Prop} {l : List (Nat × α)} (h : l.Pairwise R) :
    (drain l).Pairwise fun a b => a.1 < b.1 ∨ a.1 = b.1 ∧ R a b := by
  induction l using serving_induction with
  | nil => exact List.Pairwise.nil
  | serve before first after hbefore hafter ih =>
    have hrest : (before ++ after).Pairwise R :=
      h.sublist ((List.Sublist.refl before).append (List.sublist_cons_self first after))
    rw [drain_eq hbefore hafter]
    refine List.pairwise_cons.2 ⟨fun p hp => ?_, ih hrest⟩
    rw [(drain_perm _).mem_iff, List.mem_append] at hp
    rcases hp with hp | hp
    · exact .inl (hbefore p hp)
    · have hfirst : R first p :=
        (List.pairwise_cons.1 (List.pairwise_append.1 h).2.1).1 p hp
      exact (Nat.lt_or_eq_of_le (hafter p hp)).imp_right fun heq => ⟨heq, hfirst⟩

end Arrivals

/-- A bucket queue that drops duplicates serves in the order of the keys, and under one key in the
order in which the pairs have come first. -/
theorem BucketQueue.pairwise_drain [BEq α] [LawfulBEq α] (l : List (Nat × α)) :
    (l.foldl (fun (q : BucketQueue α) e => (q.enqueue e.1 e.2).2) (.empty true)).drain.Pairwise
      fun a b => a.1 < b.1 ∨ a.1 = b.1 ∧ ComesBefore l a b := by
  rw [drain_foldl_enqueue]
  exact Arrivals.pairwise_drain (Arrivals.pairwise_foldl_enqueue l)

end Timetable
