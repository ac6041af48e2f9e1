import Timetable.Proofs.Queue.Arrivals
import Mathlib.Data.List.Forall2

/-!
# The same queue over other values

The order in which a queue serves depends on the keys and on which pairs are equal. So if what
arrives at two queues is related pair by pair, by a relation that keeps the keys and tells equal
pairs from different ones, what they serve is related in the same way.

* `Arrivals.forall₂_enqueue`, `Arrivals.forall₂_dequeue`: one arrival, and one pair served.
* `Arrivals.forall₂_drain`: all that is served.
* `Arrivals.mem_foldl_enqueue`, `BucketQueue.mem_drain_foldl_enqueue`: what waits, and what is
  served in the end, where duplicates are dropped.
* `BucketQueue.forall₂_drain`: the same for bucket queues that drop duplicates.
-/

namespace Timetable

variable {α β : Type} {R : Nat × α → Nat × β → Prop} {l : List (Nat × α)} {m : List (Nat × β)}

namespace Arrivals

/-! ### One pair -/

section Keys

variable (hkey : ∀ a b, R a b → a.1 = b.1)

include hkey

theorem leastKey?_eq (h : List.Forall₂ R l m) : leastKey? l = leastKey? m := by
  have hkeys : l.map Prod.fst = m.map Prod.fst := by
    induction h with
    | nil => rfl
    | cons hab _ ih => rw [List.map_cons, List.map_cons, hkey _ _ hab, ih]
  rw [leastKey?, leastKey?, hkeys]

theorem rel_find?_key (h : List.Forall₂ R l m) (key : Nat) :
    Option.Rel R (l.find? fun p => p.1 == key) (m.find? fun p => p.1 == key) := by
  induction h with
  | nil => exact .none
  | cons hab _ ih =>
    rw [List.find?_cons, List.find?_cons, hkey _ _ hab]
    split
    · exact .some hab
    · exact ih

theorem forall₂_eraseP_key (h : List.Forall₂ R l m) (key : Nat) :
    List.Forall₂ R (l.eraseP fun p => p.1 == key) (m.eraseP fun p => p.1 == key) := by
  induction h with
  | nil => exact .nil
  | @cons a b _ _ hab hrest ih =>
    rw [List.eraseP_cons, List.eraseP_cons, hkey a b hab]
    cases b.1 == key with
    | true => exact hrest
    | false => exact .cons hab ih

/-- Related lists serve related pairs, and are related afterwards. -/
theorem forall₂_dequeue (h : List.Forall₂ R l m) :
    Option.Rel R (dequeue l).1 (dequeue m).1 ∧ List.Forall₂ R (dequeue l).2 (dequeue m).2 := by
  rw [dequeue, dequeue, leastKey?_eq hkey h]
  cases leastKey? m with
  | none => exact ⟨.none, h⟩
  | some key => exact ⟨rel_find?_key hkey h key, forall₂_eraseP_key hkey h key⟩

theorem forall₂_take (h : List.Forall₂ R l m) (n : Nat) :
    List.Forall₂ R (take l n).1 (take m n).1 := by
  induction n generalizing l m with
  | zero => exact .nil
  | succ n ih =>
    obtain ⟨hserved, hleft⟩ := forall₂_dequeue hkey h
    rw [take, take]
    rcases hl : dequeue l with ⟨served, l'⟩
    rcases hm : dequeue m with ⟨served', m'⟩
    rw [hl, hm] at hserved hleft
    cases hserved with
    | none => exact .nil
    | some hab => exact .cons hab (ih hleft)

/-- Related lists serve related pairs to the end. -/
theorem forall₂_drain (h : List.Forall₂ R l m) : List.Forall₂ R (drain l) (drain m) := by
  rw [drain, drain, h.length_eq]
  exact forall₂_take hkey h m.length

end Keys

/-- A related pair is refused in one list exactly when it is in the other. -/
theorem forall₂_enqueue [BEq α] [LawfulBEq α] [BEq β] [LawfulBEq β] (hR : Relator.BiUnique R)
    (h : List.Forall₂ R l m) {a : Nat × α} {b : Nat × β} (hab : R a b) :
    List.Forall₂ R (enqueue true l a.1 a.2).2 (enqueue true m b.1 b.2).2 := by
  have hmem : a ∈ l ↔ b ∈ m := List.rel_mem hR hab h
  rw [enqueue, enqueue, Bool.true_and, Bool.true_and]
  by_cases ha : a ∈ l
  · rw [if_pos (List.contains_iff_mem.2 ha), if_pos (List.contains_iff_mem.2 (hmem.1 ha))]
    exact h
  · have hb : ¬b ∈ m := fun hb => ha (hmem.2 hb)
    rw [if_neg (mt List.contains_iff_mem.1 ha), if_neg (mt List.contains_iff_mem.1 hb)]
    exact List.rel_append h (.cons hab .nil)

/-- Of the pairs that arrive, only those are refused that wait already. -/
theorem mem_foldl_enqueue [BEq α] [LawfulBEq α] {l : List (Nat × α)} {e : Nat × α} :
    e ∈ l.foldl (fun waiting e => (enqueue true waiting e.1 e.2).2) [] ↔ e ∈ l := by
  suffices hall : ∀ waiting : List (Nat × α),
      e ∈ l.foldl (fun waiting e => (enqueue true waiting e.1 e.2).2) waiting ↔
        e ∈ waiting ∨ e ∈ l by
    simpa using hall []
  induction l with
  | nil => simp
  | cons a l ih =>
    intro waiting
    have hstep : e ∈ (enqueue true waiting a.1 a.2).2 ↔ e ∈ waiting ∨ e = a := by
      rw [enqueue, Bool.true_and]
      split
      · rename_i hmem
        refine (or_iff_left_of_imp ?_).symm
        rintro rfl
        exact List.contains_iff_mem.1 hmem
      · simp
    rw [List.foldl_cons, ih, hstep, List.mem_cons, or_assoc]

end Arrivals

namespace BucketQueue

/-- Pairs that arrive one after the other are served like a list of arrivals serves them. -/
theorem drain_foldl_enqueue [BEq α] [EquivBEq α] (l : List (Nat × α)) :
    (l.foldl (fun (q : BucketQueue α) e => (q.enqueue e.1 e.2).2) (.empty true)).drain =
      Arrivals.drain (l.foldl (fun waiting e => (Arrivals.enqueue true waiting e.1 e.2).2) []) := by
  suffices hall : ∀ {q : BucketQueue α} {waiting}, Matches true q waiting →
      Matches true (l.foldl (fun q e => (q.enqueue e.1 e.2).2) q)
        (l.foldl (fun waiting e => (Arrivals.enqueue true waiting e.1 e.2).2) waiting) from
    (hall (Matches.empty true)).takeAll.1
  intro q waiting h
  induction l generalizing q waiting with
  | nil => exact h
  | cons e l ih => exact ih (h.enqueue e.1 e.2).2

/-- A queue that drops duplicates serves just the pairs that have arrived. -/
theorem mem_drain_foldl_enqueue [BEq α] [LawfulBEq α] {l : List (Nat × α)} {e : Nat × α} :
    e ∈ (l.foldl (fun (q : BucketQueue α) e => (q.enqueue e.1 e.2).2) (.empty true)).drain ↔
      e ∈ l := by
  rw [drain_foldl_enqueue, (Arrivals.drain_perm _).mem_iff, Arrivals.mem_foldl_enqueue]

/-- Bucket queues at which related pairs arrive serve related pairs. -/
theorem forall₂_drain [BEq α] [LawfulBEq α] [BEq β] [LawfulBEq β] (hR : Relator.BiUnique R)
    (hkey : ∀ a b, R a b → a.1 = b.1) (h : List.Forall₂ R l m) :
    List.Forall₂ R
      (l.foldl (fun (q : BucketQueue α) e => (q.enqueue e.1 e.2).2) (.empty true)).drain
      (m.foldl (fun (q : BucketQueue β) e => (q.enqueue e.1 e.2).2) (.empty true)).drain := by
  rw [drain_foldl_enqueue, drain_foldl_enqueue]
  have hstep : ∀ w w', List.Forall₂ R w w' → ∀ a b, R a b → List.Forall₂ R
      (Arrivals.enqueue true w a.1 a.2).2 (Arrivals.enqueue true w' b.1 b.2).2 :=
    fun w w' hw a b hab => Arrivals.forall₂_enqueue hR hw hab
  exact Arrivals.forall₂_drain hkey (List.rel_foldl hstep .nil h)

end BucketQueue

end Timetable
