import Timetable.Proofs.Partition.Forest
import Mathlib.Logic.Relation

/-!
# Calls on a forest

Looking for a root and joining two trees both change parents. Whatever calls are made, and in
whatever order, the way up from every number ends, at the root that it would have ended at before the
search shortened it, and two numbers have one root just when the pairs that have been united connect
them.

The search is defined with a bound on its steps. What it does is compared here with the walk that has
none and goes on until it has come to a root: the bound never cuts the walk short.

* `Ascends`: the walk without a bound.
* `Rooted.ascends`: the search is such a walk.
* `Call`, `after`: calls, and the forest that they leave.
* `Connected`: the pairs that have been united connect two numbers.
* `exists_rooted_after`: the roots after the calls.
* `rank_after_le`: how large a rank can be.
* `calls_sound`: the theorem.
-/

namespace Timetable.UnionFind

/-! ### The walk without a bound -/

/-- The walk up from a number over the forest of the numbers below `n` ends at `r`, and leaves the
forest `u'`. It goes on while the number is not its own parent, and lets each number on the way skip
its parent. All numbers that it looks up are below `n`. -/
inductive Ascends (n : Nat) : UnionFind → Nat → Nat → UnionFind → Prop where
  | top {u : UnionFind} {x : Nat} (hx : x < n) (h : u.parent x = x) : Ascends n u x x u
  | step {u u' : UnionFind} {x r : Nat} (hx : x < n) (hp : u.parent x < n) (h : u.parent x ≠ x)
    (rest : Ascends n (u.halve x) ((u.halve x).parent x) r u') : Ascends n u x r u'

/-- A climb that has come to a root is a walk: its bound has not cut it short. -/
theorem Rooted.ascends_climb {n : Nat} {root : Nat → Nat} {steps : Nat} {u u' : UnionFind}
    {x r : Nat} (h : u.Rooted n root) (hx : x < n) (hclimb : u.climb x steps = (r, u'))
    (htop : u'.parent r = r) : Ascends n u x r u' := by
  induction steps generalizing u x with
  | zero =>
    cases hclimb
    exact .top hx htop
  | succ steps ih =>
    rw [UnionFind.climb] at hclimb
    split at hclimb
    · rename_i hself
      cases hclimb
      exact .top hx hself
    · rename_i hne
      have hp := h.parent_lt x hx
      have hnext : (u.halve x).parent x < n := by
        rw [h.parent_halve hx]
        exact h.parent_lt _ hp
      exact .step hx hp hne (ih (h.halve hx hne) hnext hclimb)

/-- The search walks up to the root. -/
theorem Rooted.ascends {u : UnionFind} {n : Nat} {root : Nat → Nat} (h : u.Rooted n root) {x : Nat}
    (hx : x < n) :
    ∃ u', u.find x = (root x, u') ∧ Ascends n u x (root x) u' ∧ u'.Rooted n root := by
  obtain ⟨u', hfind, hu'⟩ := h.find hx
  exact ⟨u', hfind, h.ascends_climb hx hfind (hu'.parent_root x hx), hu'⟩

/-! ### Calls -/

/-- A call on a forest. -/
inductive Call where
  | union (x y : Nat)
  | find (x : Nat)
  deriving DecidableEq

def Call.Below (n : Nat) : Call → Prop
  | .union x y => x < n ∧ y < n
  | .find x => x < n

def call (u : UnionFind) : Call → UnionFind
  | .union x y => u.union x y
  | .find x => (u.find x).2

/-- The forest that calls leave, made one after the other on the forest of `n` trees. -/
def after (n : Nat) (calls : List Call) : UnionFind := calls.foldl call (ofSize n)

def United (calls : List Call) (x y : Nat) : Prop := .union x y ∈ calls

/-- The pairs that the calls have united connect the two numbers. -/
def Connected (calls : List Call) : Nat → Nat → Prop := Relation.EqvGen (United calls)

theorem after_concat (n : Nat) (calls : List Call) (c : Call) :
    after n (calls ++ [c]) = (after n calls).call c := by
  rw [after, List.foldl_append]
  rfl

namespace Connected

variable {calls : List Call} {v w : Nat}

theorem concat (h : Connected calls v w) (c : Call) : Connected (calls ++ [c]) v w :=
  Relation.EqvGen.mono (fun _ _ hunited => List.mem_append_left _ hunited) v w h

/-- Numbers that are connected are alike in all that united numbers are alike in. -/
theorem eq_of_united (root : Nat → Nat) (h : Connected calls v w)
    (hroot : ∀ x y, United calls x y → root x = root y) : root v = root w := by
  induction h with
  | rel x y hunited => exact hroot x y hunited
  | refl x => rfl
  | symm x y _ ih => exact ih.symm
  | trans x y z _ _ ihxy ihyz => exact ihxy.trans ihyz

end Connected

/-- Looking for a root connects nothing. -/
theorem connected_find_iff {calls : List Call} {x v w : Nat} :
    Connected (calls ++ [.find x]) v w ↔ Connected calls v w := by
  refine ⟨Relation.EqvGen.mono (fun a b hunited => ?_) v w, fun h => h.concat _⟩
  rcases List.mem_append.1 hunited with hunited | hunited
  · exact hunited
  · cases List.mem_singleton.1 hunited

/-- Joining two numbers connects what was connected to either of them. -/
theorem connected_union_iff {calls : List Call} {root root' : Nat → Nat} {x y : Nat}
    (hroot : ∀ v w, root v = root w ↔ Connected calls v w)
    (hjoin : ∀ v w, root' v = root' w ↔ Rooted.Joins root [root x, root y] v w) (v w : Nat) :
    root' v = root' w ↔ Connected (calls ++ [.union x y]) v w := by
  constructor
  · intro h
    have hxy : Connected (calls ++ [.union x y]) x y :=
      .rel x y (List.mem_append_right _ (List.mem_singleton_self _))
    -- Either of the two numbers leads on to `x`, directly or by way of `y`.
    have htop : ∀ z, root z = root x ∨ root z = root y → Connected (calls ++ [.union x y]) z x := by
      rintro z (hz | hz)
      · exact ((hroot z x).1 hz).concat _
      · exact .trans _ _ _ (((hroot z y).1 hz).concat _) (.symm _ _ hxy)
    rw [hjoin, Rooted.joins_pair] at h
    rcases h with h | ⟨hv, hw⟩
    · exact ((hroot v w).1 h).concat _
    · exact .trans _ _ _ (htop v hv) (.symm _ _ (htop w hw))
  · intro h
    refine h.eq_of_united root' fun a b hunited => ?_
    rw [hjoin, Rooted.joins_pair]
    rcases List.mem_append.1 hunited with hunited | hunited
    · exact .inl ((hroot a b).2 (.rel a b hunited))
    · cases List.mem_singleton.1 hunited
      exact .inr ⟨.inl rfl, .inr rfl⟩

/-- After the calls the forest is well formed, and its roots tell what is connected. -/
theorem exists_rooted_after {n : Nat} {calls : List Call} (h : ∀ c ∈ calls, c.Below n) :
    ∃ root, (after n calls).Rooted n root ∧ ∀ v w, root v = root w ↔ Connected calls v w := by
  induction calls using List.reverseRecOn with
  | nil =>
    refine ⟨id, rooted_ofSize n, fun v w => ⟨?_, ?_⟩⟩
    · rintro rfl
      exact .refl v
    · exact fun h => h.eq_of_united id fun _ _ hunited => nomatch hunited
  | append_singleton calls c ih =>
    obtain ⟨root, hroot, hconnected⟩ := ih fun d hd => h d (List.mem_append_left _ hd)
    have hc := h c (List.mem_append_right _ (List.mem_singleton_self c))
    rw [after_concat]
    cases c with
    | find x =>
      obtain ⟨u', hfind, hu'⟩ := hroot.find hc
      refine ⟨root, ?_, fun v w => (hconnected v w).trans connected_find_iff.symm⟩
      rw [call, hfind]
      exact hu'
    | union x y =>
      obtain ⟨root', hroot', hjoin⟩ := hroot.union hc.1 hc.2
      exact ⟨root', hroot', connected_union_iff hconnected hjoin⟩

/-- After any calls on a forest of no more numbers than there are words, every rank is at most 64, so
that a byte has room for it. -/
theorem rank_after_le {n : Nat} {calls : List Call} (h : ∀ c ∈ calls, c.Below n) (hn : n ≤ 2 ^ 64)
    {x : Nat} (hx : x < n) : (after n calls).rank x ≤ 64 := by
  obtain ⟨root, hroot, -⟩ := exists_rooted_after h
  have hlog : n.log2 < 65 := by
    rw [Nat.log2_lt (Nat.ne_of_gt (Nat.zero_lt_of_lt hx))]
    exact Nat.lt_of_le_of_lt hn (by decide)
  exact Nat.le_trans (hroot.rank_le_log2 hx) (Nat.le_of_lt_succ hlog)

/-- **The forest is sound under all calls.** After any calls the walk up from any number ends, without
a bound on its steps, and the search is that walk. It answers a number that is its own parent, before
and after, and all numbers have the roots that they had before. Two numbers have one root just when
the pairs that have been united connect them. -/
theorem calls_sound (n : Nat) (calls : List Call) (h : ∀ c ∈ calls, c.Below n) :
    (∀ x < n, ∃ r u', (after n calls).find x = (r, u') ∧ Ascends n (after n calls) x r u' ∧
      (after n calls).parent r = r ∧ u'.parent r = r ∧
      ∀ y < n, (u'.find y).1 = ((after n calls).find y).1) ∧
    ∀ x < n, ∀ y < n, ((after n calls).find x).1 = (((after n calls).find x).2.find y).1 ↔
      Connected calls x y := by
  obtain ⟨root, hroot, hconnected⟩ := exists_rooted_after h
  constructor
  · intro x hx
    obtain ⟨u', hfind, hascends, hu'⟩ := hroot.ascends hx
    refine ⟨root x, u', hfind, hascends, hroot.parent_root x hx, hu'.parent_root x hx,
      fun y hy => ?_⟩
    obtain ⟨_, hafter, -⟩ := hu'.find hy
    obtain ⟨_, hbefore, -⟩ := hroot.find hy
    rw [hafter, hbefore]
  · intro x hx y hy
    obtain ⟨u', hfind, hu'⟩ := hroot.find hx
    obtain ⟨_, hnext, -⟩ := hu'.find hy
    rw [hfind, hnext]
    exact hconnected x y

/-- Four numbers in two pairs, which a third call joins after a search. -/
theorem calls_sound_four :
    let calls : List Call := [.union 0 1, .union 2 3, .find 3, .union 1 3]
    (∀ c ∈ calls, c.Below 4) ∧
    (∀ x < 4, ∃ r u', (after 4 calls).find x = (r, u') ∧ Ascends 4 (after 4 calls) x r u' ∧
      (after 4 calls).parent r = r ∧ u'.parent r = r ∧
      ∀ y < 4, (u'.find y).1 = ((after 4 calls).find y).1) ∧
    ∀ x < 4, ∀ y < 4, ((after 4 calls).find x).1 = (((after 4 calls).find x).2.find y).1 ↔
      Connected calls x y := by
  intro calls
  have hbelow : ∀ c ∈ calls, c.Below 4 := by
    intro c hc
    simp only [calls, List.mem_cons, List.not_mem_nil, or_false] at hc
    rcases hc with rfl | rfl | rfl | rfl <;> simp [Call.Below]
  exact ⟨hbelow, calls_sound 4 calls hbelow⟩

end Timetable.UnionFind
