import Timetable.UnionFind
import Mathlib.Data.Finset.Card
import Mathlib.Order.Interval.Finset.Nat

/-!
# The roots of a forest

What a forest of numbers says is which number is the root of each. Looking for a root shortens ways
but moves no root, and joining two numbers gives all numbers of their two trees one root.

A way up ends because ranks increase along it: with each step there are fewer numbers of higher rank
than the one that has been reached. A rank grows only where two trees of equal rank are joined, so
the tree of a number is at least twice as large for each rank, and ranks stay small.

* `Rooted`: the forest is well formed and has the given roots.
* `Rooted.find`: the search ends at the root.
* `Rooted.union`: which numbers have one root afterwards.
* `Rooted.rank_le_log2`: a rank is at most the logarithm of how many numbers there are.
-/

namespace Timetable.UnionFind

/-- The numbers below `n` that have the root of `x`. -/
def treeOf (n : Nat) (root : Nat → Nat) (x : Nat) : Finset Nat :=
  (Finset.range n).filter fun y => root y = root x

theorem mem_treeOf {n : Nat} {root : Nat → Nat} {x y : Nat} :
    y ∈ treeOf n root x ↔ y < n ∧ root y = root x := by
  rw [treeOf, Finset.mem_filter, Finset.mem_range]

/-- The forest over the numbers below `n` in which `root` gives the root of each number. -/
structure Rooted (u : UnionFind) (n : Nat) (root : Nat → Nat) : Prop where
  length_parents : u.parents.length = n
  length_ranks : u.ranks.length = n
  parent_lt : ∀ x < n, u.parent x < n
  /-- Ranks increase along the way to the root. -/
  rank_lt : ∀ x < n, u.parent x ≠ x → u.rank x < u.rank (u.parent x)
  root_lt : ∀ x < n, root x < n
  root_parent : ∀ x < n, root (u.parent x) = root x
  root_of_parent_eq : ∀ x < n, u.parent x = x → root x = x
  parent_root : ∀ x < n, u.parent (root x) = root x
  /-- A rank has been paid for by the size of the tree. -/
  pow_rank_le : ∀ x < n, 2 ^ u.rank x ≤ (treeOf n root x).card

/-! ### Changing parents and ranks -/

theorem parent_set {u : UnionFind} {x : Nat} (hx : x < u.parents.length) (v : Nat) (ranks : List Nat)
    (y : Nat) : parent ⟨u.parents.set x v, ranks⟩ y = if y = x then v else u.parent y := by
  by_cases h : y = x
  · subst h
    simp [parent, List.getD_eq_getElem?_getD, hx]
  · simp [parent, List.getD_eq_getElem?_getD, List.getElem?_set_ne (Ne.symm h), h]

theorem rank_set {u : UnionFind} {x : Nat} (hx : x < u.ranks.length) (v : Nat) (parents : List Nat)
    (y : Nat) : rank ⟨parents, u.ranks.set x v⟩ y = if y = x then v else u.rank y := by
  by_cases h : y = x
  · subst h
    simp [rank, List.getD_eq_getElem?_getD, hx]
  · simp [rank, List.getD_eq_getElem?_getD, List.getElem?_set_ne (Ne.symm h), h]

theorem rooted_ofSize (n : Nat) : (ofSize n).Rooted n id := by
  have hparent : ∀ x, (ofSize n).parent x = x := by
    intro x
    simp only [parent, ofSize, List.getD_eq_getElem?_getD]
    rcases Nat.lt_or_ge x n with h | h
    · simp [h]
    · rw [List.getElem?_eq_none (by simpa using h)]
      rfl
  have hrank : ∀ x, (ofSize n).rank x = 0 := by
    intro x
    simp only [rank, ofSize, List.getD_eq_getElem?_getD, List.getElem?_replicate]
    split <;> rfl
  exact {
    length_parents := List.length_range
    length_ranks := List.length_replicate
    parent_lt := fun x hx => by rwa [hparent]
    rank_lt := fun x _ h => absurd (hparent x) h
    root_lt := fun x hx => hx
    root_parent := fun x _ => hparent x
    root_of_parent_eq := fun x _ _ => rfl
    parent_root := fun x _ => hparent x
    pow_rank_le := fun x hx => by
      rw [hrank]
      exact Finset.card_pos.2 ⟨x, mem_treeOf.2 ⟨hx, rfl⟩⟩ }

def higher (u : UnionFind) (n x : Nat) : Finset Nat :=
  (Finset.range n).filter fun y => u.rank x < u.rank y

/-- On the way up there are fewer and fewer of them. -/
theorem higher_ssubset {u : UnionFind} {n x y : Nat} (hy : y < n) (hlt : u.rank x < u.rank y) :
    higher u n y ⊂ higher u n x := by
  refine Finset.ssubset_iff_of_subset ?_ |>.2 ⟨y, ?_, ?_⟩
  · intro z hz
    obtain ⟨hzn, hyz⟩ := Finset.mem_filter.1 hz
    exact Finset.mem_filter.2 ⟨hzn, Nat.lt_trans hlt hyz⟩
  · exact Finset.mem_filter.2 ⟨Finset.mem_range.2 hy, hlt⟩
  · intro hmem
    exact Nat.lt_irrefl _ (Finset.mem_filter.1 hmem).2

namespace Rooted

variable {u : UnionFind} {n : Nat} {root : Nat → Nat}

/-- Ranks do not fall on the step to the parent. -/
theorem rank_le_parent (h : u.Rooted n root) {x : Nat} (hx : x < n) :
    u.rank x ≤ u.rank (u.parent x) := by
  by_cases hself : u.parent x = x
  · rw [hself]
  · exact Nat.le_of_lt (h.rank_lt x hx hself)

theorem parent_halve (h : u.Rooted n root) {x : Nat} (hx : x < n) :
    (u.halve x).parent x = u.parent (u.parent x) := by
  have hset := parent_set (by rw [h.length_parents]; exact hx) (u.parent (u.parent x)) u.ranks x
  rwa [if_pos rfl] at hset

/-- A number that skips its parent keeps its root. -/
theorem halve (h : u.Rooted n root) {x : Nat} (hx : x < n) (hne : u.parent x ≠ x) :
    (u.halve x).Rooted n root := by
  have hplt := h.parent_lt x hx
  have hup : u.rank x < u.rank (u.parent (u.parent x)) :=
    Nat.lt_of_lt_of_le (h.rank_lt x hx hne) (h.rank_le_parent hplt)
  have hparent : ∀ y, (u.halve x).parent y = if y = x then u.parent (u.parent x) else u.parent y :=
    parent_set (by rw [h.length_parents]; exact hx) _ u.ranks
  exact {
    length_parents := by
      show (u.parents.set x _).length = n
      rw [List.length_set, h.length_parents]
    length_ranks := h.length_ranks
    parent_lt := fun y hy => by
      rw [hparent]
      split
      · exact h.parent_lt _ hplt
      · exact h.parent_lt y hy
    rank_lt := fun y hy => by
      show (u.halve x).parent y ≠ y → u.rank y < u.rank ((u.halve x).parent y)
      rw [hparent]
      split
      · rename_i heq
        subst heq
        exact fun _ => hup
      · exact h.rank_lt y hy
    root_lt := h.root_lt
    root_parent := fun y hy => by
      rw [hparent]
      split
      · rename_i heq
        rw [h.root_parent _ hplt, h.root_parent x hx, heq]
      · exact h.root_parent y hy
    root_of_parent_eq := fun y hy => by
      rw [hparent]
      split
      · rename_i heq
        subst heq
        intro hback
        rw [hback] at hup
        exact absurd hup (Nat.lt_irrefl _)
      · exact h.root_of_parent_eq y hy
    parent_root := fun y hy => by
      have hother : root y ≠ x := by
        intro heq
        exact hne (heq ▸ h.parent_root y hy)
      rw [hparent, if_neg hother]
      exact h.parent_root y hy
    pow_rank_le := h.pow_rank_le }

/-! ### Looking for the root -/

/-- The way up ends at the root, in as many steps as there are numbers of higher rank. -/
theorem climb (h : u.Rooted n root) {x : Nat} (hx : x < n) {steps : Nat}
    (hsteps : (higher u n x).card ≤ steps) :
    ∃ u', u.climb x steps = (root x, u') ∧ u'.Rooted n root := by
  induction steps generalizing u x with
  | zero =>
    have htop : u.parent x = x := by
      by_contra hne
      have hmem : u.parent x ∈ higher u n x :=
        Finset.mem_filter.2 ⟨Finset.mem_range.2 (h.parent_lt x hx), h.rank_lt x hx hne⟩
      exact absurd (Finset.card_pos.2 ⟨_, hmem⟩) (by omega)
    rw [UnionFind.climb, h.root_of_parent_eq x hx htop]
    exact ⟨u, rfl, h⟩
  | succ steps ih =>
    rw [UnionFind.climb]
    by_cases htop : u.parent x = x
    · rw [if_pos htop, h.root_of_parent_eq x hx htop]
      exact ⟨u, rfl, h⟩
    · rw [if_neg htop]
      have hplt := h.parent_lt x hx
      have hup : u.rank x < u.rank (u.parent (u.parent x)) :=
        Nat.lt_of_lt_of_le (h.rank_lt x hx htop) (h.rank_le_parent hplt)
      have hfewer := Finset.card_lt_card (higher_ssubset (h.parent_lt _ hplt) hup)
      dsimp only
      rw [h.parent_halve hx, ← h.root_parent x hx, ← h.root_parent _ hplt]
      exact ih (h.halve hx htop) (h.parent_lt _ hplt)
        (Nat.le_of_lt_succ (Nat.lt_of_lt_of_le hfewer hsteps))

/-- The search finds the root, and moves none. -/
theorem find (h : u.Rooted n root) {x : Nat} (hx : x < n) :
    ∃ u', u.find x = (root x, u') ∧ u'.Rooted n root := by
  apply h.climb hx
  rw [h.length_parents]
  exact (Finset.card_filter_le _ _).trans_eq (Finset.card_range n)

/-! ### Joining trees -/

/-- Two numbers have one root after the trees of the roots `tops` have been joined. -/
def Joins (root : Nat → Nat) (tops : List Nat) (v w : Nat) : Prop :=
  root v = root w ∨ root v ∈ tops ∧ root w ∈ tops

theorem joins_nil (root : Nat → Nat) (v w : Nat) : Joins root [] v w ↔ root v = root w :=
  or_iff_left fun h => List.not_mem_nil h.1

theorem joins_singleton (root : Nat → Nat) (a v w : Nat) : Joins root [a] v w ↔ root v = root w := by
  simp only [Joins, List.mem_singleton]
  omega

theorem joins_pair (root : Nat → Nat) (a b v w : Nat) :
    Joins root [a, b] v w ↔
      root v = root w ∨ (root v = a ∨ root v = b) ∧ (root w = a ∨ root w = b) := by
  simp only [Joins, List.mem_cons, List.not_mem_nil, or_false]

theorem joins_swap (root : Nat → Nat) (a b v w : Nat) :
    Joins root [a, b] v w ↔ Joins root [b, a] v w := by
  rw [joins_pair, joins_pair]
  omega

/-- The roots after that of `a` has been replaced by `b`. -/
theorem joins_iff (root : Nat → Nat) (a b v w : Nat) :
    (if root v = a then b else root v) = (if root w = a then b else root w) ↔
      Joins root [a, b] v w := by
  rw [joins_pair]
  split <;> split <;> omega

/-- The tree of a root that another one has been hung below is as large as both trees were. -/
theorem card_treeOf_hang (h : u.Rooted n root) {lower upper : Nat} (hupper : upper < n)
    (hlower : lower < n) (hltop : u.parent lower = lower) (hutop : u.parent upper = upper)
    (hne : lower ≠ upper) :
    (treeOf n root upper).card + (treeOf n root lower).card ≤
      (treeOf n (fun x => if root x = lower then upper else root x) upper).card := by
  have hrootl := h.root_of_parent_eq lower hlower hltop
  have hrootu := h.root_of_parent_eq upper hupper hutop
  have hapart : Disjoint (treeOf n root upper) (treeOf n root lower) := by
    refine Finset.disjoint_left.2 fun y hyu hyl => hne ?_
    rw [← hrootl, ← hrootu, ← (mem_treeOf.1 hyu).2, (mem_treeOf.1 hyl).2]
  rw [← Finset.card_union_of_disjoint hapart]
  refine Finset.card_le_card fun y hy => ?_
  rw [mem_treeOf, hrootu, if_neg (Ne.symm hne)]
  rcases Finset.mem_union.1 hy with hy | hy
  · obtain ⟨hyn, heq⟩ := mem_treeOf.1 hy
    rw [heq, hrootu, if_neg (Ne.symm hne)]
    exact ⟨hyn, rfl⟩
  · obtain ⟨hyn, heq⟩ := mem_treeOf.1 hy
    rw [heq, hrootl, if_pos rfl]
    exact ⟨hyn, rfl⟩

/-- One root is hung below another one of higher rank, and the rank of that one may have grown, as
far as both trees pay for it. -/
theorem hang (h : u.Rooted n root) {v : UnionFind} {lower upper : Nat} (hupper : upper < n)
    (hlower : lower < n) (hltop : u.parent lower = lower) (hutop : u.parent upper = upper)
    (hne : lower ≠ upper) (hparents : v.parents.length = n) (hranks : v.ranks.length = n)
    (hparent : ∀ y, v.parent y = if y = lower then upper else u.parent y)
    (hsame : ∀ y, y ≠ upper → v.rank y = u.rank y) (hgrow : u.rank upper ≤ v.rank upper)
    (hlt : u.rank lower < v.rank upper)
    (hpaid : 2 ^ v.rank upper ≤ 2 ^ u.rank upper + 2 ^ u.rank lower) :
    v.Rooted n fun x => if root x = lower then upper else root x where
  length_parents := hparents
  length_ranks := hranks
  parent_lt y hy := by
    rw [hparent]
    split
    · exact hupper
    · exact h.parent_lt y hy
  rank_lt y hy := by
    rw [hparent]
    split
    · rename_i heq
      subst heq
      rw [hsame y hne]
      exact fun _ => hlt
    · intro hstep
      have hyu : y ≠ upper := fun heq => hstep (heq ▸ hutop)
      rw [hsame y hyu]
      apply Nat.lt_of_lt_of_le (h.rank_lt y hy hstep)
      by_cases hpu : u.parent y = upper
      · rw [hpu]
        exact hgrow
      · rw [hsame _ hpu]
  root_lt y hy := by
    split
    · exact hupper
    · exact h.root_lt y hy
  root_parent y hy := by
    rw [hparent]
    split
    · rename_i heq
      rw [h.root_of_parent_eq upper hupper hutop, heq, h.root_of_parent_eq lower hlower hltop,
        if_neg (Ne.symm hne), if_pos rfl]
    · rw [h.root_parent y hy]
  root_of_parent_eq y hy := by
    rw [hparent]
    split
    · rename_i heq
      exact fun hself => absurd (heq.symm.trans hself.symm) hne
    · rename_i hyl
      intro hself
      rw [h.root_of_parent_eq y hy hself, if_neg hyl]
  parent_root y hy := by
    rw [hparent]
    split
    · rw [if_neg (Ne.symm hne)]
      exact hutop
    · exact h.parent_root y hy
  pow_rank_le y hy := by
    by_cases hyu : y = upper
    · subst hyu
      have hboth := h.card_treeOf_hang hy hlower hltop hutop hne
      have hu := h.pow_rank_le y hy
      have hl := h.pow_rank_le lower hlower
      omega
    · rw [hsame y hyu]
      refine Nat.le_trans (h.pow_rank_le y hy) (Finset.card_le_card fun z hz => ?_)
      obtain ⟨hzn, heq⟩ := mem_treeOf.1 hz
      rw [mem_treeOf, heq]
      exact ⟨hzn, rfl⟩

/-- Two roots are linked: the numbers below them have one root afterwards. -/
theorem link (h : u.Rooted n root) {a b : Nat} (ha : a < n) (hb : b < n) (hatop : u.parent a = a)
    (hbtop : u.parent b = b) :
    ∃ root', (u.link a b).Rooted n root' ∧ ∀ v w, root' v = root' w ↔ Joins root [a, b] v w := by
  have hparents : ∀ x v, (u.parents.set x v).length = n := fun x v => by
    rw [List.length_set, h.length_parents]
  have hset : ∀ {x}, x < n → x < u.parents.length := fun hx => h.length_parents ▸ hx
  rw [UnionFind.link]
  by_cases hab : a = b
  · subst hab
    rw [if_pos rfl]
    refine ⟨root, h, fun v w => ?_⟩
    rw [joins_pair]
    omega
  · rw [if_neg hab]
    by_cases hlt : u.rank a < u.rank b
    · rw [if_pos hlt]
      exact ⟨_, h.hang hb ha hatop hbtop hab (hparents a b) h.length_ranks
        (parent_set (hset ha) b u.ranks) (fun _ _ => rfl) (Nat.le_refl _) hlt
          (Nat.le_add_right _ _),
        joins_iff root a b⟩
    · rw [if_neg hlt]
      simp only [joins_swap root a b]
      by_cases hgt : u.rank b < u.rank a
      · rw [if_pos hgt]
        exact ⟨_, h.hang ha hb hbtop hatop (Ne.symm hab) (hparents b a) h.length_ranks
          (parent_set (hset hb) a u.ranks) (fun _ _ => rfl) (Nat.le_refl _) hgt
            (Nat.le_add_right _ _),
          joins_iff root b a⟩
      · -- Between equal ranks that of `a` grows, so `b` is below it.
        rw [if_neg hgt]
        have hrank := rank_set (h.length_ranks ▸ ha) (u.rank a + 1) (u.parents.set b a)
        have hself := hrank a
        rw [if_pos rfl] at hself
        have hequal : u.rank b = u.rank a := by omega
        exact ⟨_, h.hang ha hb hbtop hatop (Ne.symm hab) (hparents b a)
          (by rw [List.length_set, h.length_ranks]) (parent_set (hset hb) a _)
          (fun y hy => by rw [hrank, if_neg hy]) (by omega) (by omega)
          (by rw [hself, hequal, Nat.pow_succ, Nat.mul_two]), joins_iff root b a⟩

/-- Joining two numbers gives the numbers of their two trees one root, and no others. -/
theorem union (h : u.Rooted n root) {x y : Nat} (hx : x < n) (hy : y < n) :
    ∃ root', (u.union x y).Rooted n root' ∧
      ∀ v w, root' v = root' w ↔ Joins root [root x, root y] v w := by
  obtain ⟨u₁, hfind₁, h₁⟩ := h.find hx
  obtain ⟨u₂, hfind₂, h₂⟩ := h₁.find hy
  rw [UnionFind.union, hfind₁]
  dsimp only
  rw [hfind₂]
  exact h₂.link (h.root_lt x hx) (h.root_lt y hy) (h₂.parent_root x hx) (h₂.parent_root y hy)

/-- Joining one number with each of several others joins the trees of them all. -/
theorem foldl_union (h : u.Rooted n root) {x : Nat} (hx : x < n) {others : List Nat}
    (hothers : ∀ y ∈ others, y < n) :
    ∃ root', (others.foldl (fun u y => u.union x y) u).Rooted n root' ∧
      ∀ v w, root' v = root' w ↔ Joins root ((x :: others).map root) v w := by
  induction others generalizing u root with
  | nil => exact ⟨root, h, fun v w => (joins_singleton root (root x) v w).symm⟩
  | cons y others ih =>
    obtain ⟨hy, hothers⟩ := List.forall_mem_cons.1 hothers
    obtain ⟨mid, hmid, hstep⟩ := h.union hx hy
    obtain ⟨root', hroot', hrest⟩ := ih hmid hothers
    refine ⟨root', hroot', fun v w => ?_⟩
    have hjoined : ∀ {z}, root z = root x ∨ root z = root y →
        root z ∈ (x :: y :: others).map root := by
      intro z hz
      simp only [List.map_cons, List.mem_cons, ← or_assoc]
      exact .inl hz
    -- One of the trees that are joined later is that of `x`, to which that of `y` now belongs.
    have htops : ∀ z, mid z ∈ (x :: others).map mid ↔ root z ∈ (x :: y :: others).map root := by
      intro z
      constructor
      · intro hz
        obtain ⟨p, hp, hpz⟩ := List.mem_map.1 hz
        rw [hstep, joins_pair] at hpz
        rcases hpz with hpz | ⟨-, hz⟩
        · rw [← hpz]
          apply List.mem_map_of_mem
          exact List.mem_cons.2 ((List.mem_cons.1 hp).imp_right (List.mem_cons_of_mem y))
        · exact hjoined hz
      · intro hz
        have hkeep : ∀ p, mid p = mid z → p ∈ x :: others → mid z ∈ (x :: others).map mid :=
          fun p hpz hp => hpz ▸ List.mem_map_of_mem hp
        obtain ⟨p, hp, hpz⟩ := List.mem_map.1 hz
        rcases List.mem_cons.1 hp with rfl | hp
        · exact hkeep p ((hstep p z).2 (.inl hpz)) List.mem_cons_self
        · rcases List.mem_cons.1 hp with rfl | hp
          · apply hkeep x _ List.mem_cons_self
            rw [hstep, joins_pair]
            exact .inr ⟨.inl rfl, .inr hpz.symm⟩
          · exact hkeep p ((hstep p z).2 (.inl hpz)) (List.mem_cons_of_mem x hp)
    rw [hrest, Joins, htops, htops, hstep, joins_pair, Joins, or_assoc]
    exact or_congr_right (or_iff_right_of_imp fun hpair => ⟨hjoined hpair.1, hjoined hpair.2⟩)

/-- A rank is at most the logarithm of how many numbers there are. -/
theorem rank_le_log2 (h : u.Rooted n root) {x : Nat} (hx : x < n) : u.rank x ≤ n.log2 := by
  refine (Nat.le_log2 (Nat.ne_of_gt (Nat.zero_lt_of_lt hx))).2 ?_
  calc
    2 ^ u.rank x ≤ (treeOf n root x).card := h.pow_rank_le x hx
    _ ≤ (Finset.range n).card := Finset.card_filter_le _ _
    _ = n := Finset.card_range n

end Rooted

end Timetable.UnionFind
