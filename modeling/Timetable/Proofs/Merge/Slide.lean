import Timetable.Proofs.Schedule.Layout
import Timetable.Proofs.Slot.Conflict
import Timetable.Merge.Slide

/-!
# How far a schedule slides

The scan keeps, for each resource, only the claim that it met first, and its bound shrinks while it
runs. It stops as soon as it has come as far as the bound. What makes this enough: a claim that is
nearer to the seam than another use on its own side stands for that use, and a use on the other side
has already lowered the bound.

* `Claim.Settles`: what the claim of a resource must do for another use of it.
* `SlideScan.Extends`: a later state of the scan keeps the claims, and its bound is no larger.
* `Scanned`: every use that is nearer to the seam than the bound has been settled.
* `SlideScan.Grounded`: the claims are uses, and two of them have lowered the bound to what it is.
* `slideBound_le_limit`, `slideBound_add_lt`: the bound respects the alignment, and a schedule that
  has slid so far uses no resource before the accumulated schedule has finished with it.
* `exists_slideBound_add_eq`: if it has not come to the limit, it can slide no farther.
-/

namespace Timetable

variable {ω : Type} [Operation ω]

namespace Claim

def distance : Claim → Nat
  | .accumulated d => d
  | .incoming d => d

/-- The claim of a resource settles another use: on the same side it is the nearer one, and on the
other side the two do not collide within the bound. -/
def Settles (bound : Nat) : Claim → Claim → Prop
  | .accumulated d, .accumulated k => d ≤ k
  | .incoming d, .incoming t => d ≤ t
  | .accumulated d, .incoming t => bound ≤ t + d
  | .incoming d, .accumulated k => bound ≤ d + k

theorem Settles.of_bound_le {bound bound' : Nat} {c u : Claim} (h : c.Settles bound u)
    (hb : bound' ≤ bound) : c.Settles bound' u := by
  cases c <;> cases u <;> simp only [Settles] at h ⊢ <;> omega

/-- Two uses on different sides, settled by one claim, collide only beyond the bound. -/
theorem Settles.le_add {bound t k : Nat} {c : Claim} (ht : c.Settles bound (.incoming t))
    (hk : c.Settles bound (.accumulated k)) : bound ≤ t + k := by
  cases c <;> simp only [Settles] at ht hk <;> omega

end Claim

namespace SlideScan

/-- The later state keeps every claim and its bound is no larger. -/
structure Extends (s s' : SlideScan) : Prop where
  bound_le : s'.bound ≤ s.bound
  kept : ∀ r c, s.claims.get? r = some c → s'.claims.get? r = some c

/-- No claim is farther from the seam than `t`. -/
def Within (s : SlideScan) (t : Nat) : Prop :=
  ∀ r c, s.claims.get? r = some c → c.distance ≤ t

/-- The claim of the resource settles the use. -/
def Knows (s : SlideScan) (r : Resource) (u : Claim) : Prop :=
  ∃ c, s.claims.get? r = some c ∧ c.Settles s.bound u

theorem Extends.refl (s : SlideScan) : s.Extends s := ⟨Nat.le_refl _, fun _ _ h => h⟩

theorem Extends.trans {s s' s'' : SlideScan} (h : s.Extends s') (h' : s'.Extends s'') :
    s.Extends s'' where
  bound_le := Nat.le_trans h'.bound_le h.bound_le
  kept r c hc := h'.kept r c (h.kept r c hc)

theorem Knows.extend {s s' : SlideScan} {r : Resource} {u : Claim} (h : s.Knows r u)
    (he : s.Extends s') : s'.Knows r u := by
  obtain ⟨c, hc, hset⟩ := h
  exact ⟨c, he.kept r c hc, hset.of_bound_le he.bound_le⟩

theorem Within.mono {s : SlideScan} {t t' : Nat} (h : s.Within t) (ht : t ≤ t') : s.Within t' :=
  fun r c hc => Nat.le_trans (h r c hc) ht

/-! ### Meeting one use -/

/-- The state after the first claim of a resource. -/
theorem extends_insert {s : SlideScan} {r : Resource} (hr : s.claims.get? r = none) (c : Claim) :
    s.Extends { s with claims := s.claims.insert r c } where
  bound_le := Nat.le_refl _
  kept j d hj := by
    rw [SortedMap.get?_insert, if_neg]
    · exact hj
    · intro heq
      subst heq
      rw [hr] at hj
      cases hj

theorem within_insert {s : SlideScan} {t : Nat} (h : s.Within t) (r : Resource) {c : Claim}
    (hc : c.distance ≤ t) : ({ s with claims := s.claims.insert r c } : SlideScan).Within t := by
  intro j d hj
  rw [SortedMap.get?_insert] at hj
  split at hj
  · cases hj
    exact hc
  · exact h j d hj

/-- The state after a use whose distance to its own claim has lowered the bound. -/
theorem extends_lower (s : SlideScan) (n : Nat) : s.Extends { s with bound := min s.bound n } :=
  ⟨Nat.min_le_left _ _, fun _ _ h => h⟩

/-- What meeting the use `u` of a resource does to the scan. -/
structure Meets (t : Nat) (u : Claim) (r : Resource) (s s' : SlideScan) : Prop where
  extend : s.Extends s'
  within : s'.Within t
  knows : s'.Knows r u

theorem meets_incoming {s : SlideScan} {t : Nat} (h : s.Within t) (r : Resource) :
    Meets t (.incoming t) r s (s.meetIncoming t r) := by
  rw [meetIncoming]
  split
  · rename_i hr
    refine ⟨extends_insert hr _, within_insert h r (Nat.le_refl t), .incoming t, ?_, Nat.le_refl t⟩
    rw [SortedMap.get?_insert, if_pos rfl]
  · rename_i d hr
    exact ⟨Extends.refl s, h, .incoming d, hr, h r _ hr⟩
  · rename_i k hr
    exact ⟨extends_lower s _, h, .accumulated k, hr, Nat.min_le_right _ _⟩

theorem meets_accumulated {s : SlideScan} {t : Nat} (h : s.Within t) (r : Resource) :
    Meets t (.accumulated t) r s (s.meetAccumulated t r) := by
  rw [meetAccumulated]
  split
  · rename_i hr
    refine ⟨extends_insert hr _, within_insert h r (Nat.le_refl t), .accumulated t, ?_,
      Nat.le_refl t⟩
    rw [SortedMap.get?_insert, if_pos rfl]
  · rename_i d hr
    exact ⟨Extends.refl s, h, .accumulated d, hr, h r _ hr⟩
  · rename_i k hr
    refine ⟨extends_lower s _, h, .incoming k, hr, ?_⟩
    show min s.bound (t + k) ≤ k + t
    omega

/-! ### Meeting the uses of a slot -/

theorem foldl_meets {t : Nat} {u : Claim} {meet : SlideScan → Resource → SlideScan}
    (hmeet : ∀ {s : SlideScan}, s.Within t → ∀ r, Meets t u r s (meet s r)) (rs : List Resource) :
    ∀ {s : SlideScan}, s.Within t →
      s.Extends (rs.foldl meet s) ∧ (rs.foldl meet s).Within t ∧
        ∀ r ∈ rs, (rs.foldl meet s).Knows r u := by
  induction rs with
  | nil => exact fun h => ⟨Extends.refl _, h, fun r hr => nomatch hr⟩
  | cons r rs ih =>
    intro s h
    have hr := hmeet h r
    obtain ⟨hext, hwithin, hknows⟩ := ih hr.within
    refine ⟨hr.extend.trans hext, hwithin, List.forall_mem_cons.2 ⟨?_, hknows⟩⟩
    exact hr.knows.extend hext

/-! ### The scan -/

/-- The resource is used at this place. -/
def UsedAt (accumulated incoming : List (Slot ω)) (r : Resource) : Claim → Prop
  | .accumulated k => r ∈ (operationsAt accumulated.reverse k).flatMap resources
  | .incoming t => r ∈ (operationsAt incoming t).flatMap resources

theorem extends_step (accumulated incoming : List (Slot ω)) {s : SlideScan} {t : Nat}
    (h : s.Within t) : s.Extends (step accumulated incoming s t) ∧
      (step accumulated incoming s t).Within t ∧
        (t < s.bound → ∀ r u, UsedAt accumulated incoming r u → u.distance = t →
          (step accumulated incoming s t).Knows r u) := by
  rw [step]
  split
  · rename_i ht
    obtain ⟨hext, hmid, hin⟩ := foldl_meets meets_incoming (usesOf incoming[t]?) h
    obtain ⟨hext', hend, hacc⟩ :=
      foldl_meets meets_accumulated (usesOf accumulated.reverse[t]?) hmid
    refine ⟨hext.trans hext', hend, ?_⟩
    intro _ r u huse hu
    subst hu
    cases u with
    | accumulated k => exact hacc r huse
    | incoming k => exact (hin r huse).extend hext'
  · rename_i ht
    exact ⟨Extends.refl s, h, fun hlt => absurd hlt ht⟩

/-- After `n` steps every use that is nearer than both the bound and `n` has been settled. -/
structure Scanned (accumulated incoming : List (Slot ω)) (limit n : Nat) (s : SlideScan) :
    Prop where
  bound_le : s.bound ≤ limit
  within : s.Within n
  knows : ∀ r u, UsedAt accumulated incoming r u → u.distance < n → u.distance < s.bound →
    s.Knows r u

theorem scanned (accumulated incoming : List (Slot ω)) (limit n : Nat) :
    Scanned accumulated incoming limit n
      ((List.range n).foldl (step accumulated incoming) ⟨∅, limit⟩) := by
  induction n with
  | zero =>
    refine ⟨Nat.le_refl _, fun r c hc => ?_, fun r u _ hlt => absurd hlt (Nat.not_lt_zero _)⟩
    cases hc
  | succ n ih =>
    rw [List.range_succ, List.foldl_append, List.foldl_cons, List.foldl_nil]
    obtain ⟨hext, hwithin, hknows⟩ := extends_step accumulated incoming ih.within
    refine ⟨Nat.le_trans hext.bound_le ih.bound_le, hwithin.mono (Nat.le_succ n), ?_⟩
    intro r u huse hn hbound
    have hbound' := Nat.lt_of_lt_of_le hbound hext.bound_le
    -- The uses at distance `n` are met by the last step, the nearer ones have been met before.
    rcases Nat.lt_succ_iff_lt_or_eq.1 hn with hlt | heq
    · exact (ih.knows r u huse hlt hbound').extend hext
    · exact hknows (heq ▸ hbound') r u huse heq

/-! ### Where the bound comes from -/

/-- Every claim is a use, and the bound is the limit it began with or one at which two uses of a
resource meet. -/
structure Grounded (accumulated incoming : List (Slot ω)) (limit : Nat) (s : SlideScan) : Prop where
  used : ∀ r c, s.claims.get? r = some c → UsedAt accumulated incoming r c
  attained : s.bound = limit ∨ ∃ r t k, UsedAt accumulated incoming r (.incoming t) ∧
    UsedAt accumulated incoming r (.accumulated k) ∧ s.bound = t + k

namespace Grounded

variable {accumulated incoming : List (Slot ω)} {limit t : Nat} {s : SlideScan} {r : Resource}

/-- The first claim of a resource. -/
theorem insert (h : Grounded accumulated incoming limit s) {c : Claim}
    (hc : UsedAt accumulated incoming r c) :
    Grounded accumulated incoming limit { s with claims := s.claims.insert r c } where
  used j d hj := by
    rw [SortedMap.get?_insert] at hj
    split at hj
    · rename_i heq
      cases hj
      exact heq ▸ hc
    · exact h.used j d hj
  attained := h.attained

/-- Two uses of a resource on different sides lower the bound. -/
theorem lower (h : Grounded accumulated incoming limit s) {k : Nat}
    (ht : UsedAt accumulated incoming r (.incoming t))
    (hk : UsedAt accumulated incoming r (.accumulated k)) :
    Grounded accumulated incoming limit { s with bound := min s.bound (t + k) } where
  used := h.used
  attained := by
    rcases Nat.le_total s.bound (t + k) with hle | hle
    · simpa only [Nat.min_eq_left hle] using h.attained
    · exact .inr ⟨r, t, k, ht, hk, Nat.min_eq_right hle⟩

theorem meetIncoming (h : Grounded accumulated incoming limit s)
    (ht : UsedAt accumulated incoming r (.incoming t)) :
    Grounded accumulated incoming limit (s.meetIncoming t r) := by
  rw [SlideScan.meetIncoming]
  split
  · exact h.insert ht
  · exact h
  · rename_i k hr
    exact h.lower ht (h.used r _ hr)

theorem meetAccumulated (h : Grounded accumulated incoming limit s)
    (ht : UsedAt accumulated incoming r (.accumulated t)) :
    Grounded accumulated incoming limit (s.meetAccumulated t r) := by
  rw [SlideScan.meetAccumulated]
  split
  · exact h.insert ht
  · exact h
  · rename_i k hr
    rw [Nat.add_comm t k]
    exact h.lower (h.used r _ hr) ht

theorem step (h : Grounded accumulated incoming limit s) (t : Nat) :
    Grounded accumulated incoming limit (step accumulated incoming s t) := by
  rw [SlideScan.step]
  split
  · apply List.foldlRecOn
    · apply List.foldlRecOn
      · exact h
      · exact fun s h r hr => h.meetIncoming hr
    · exact fun s h r hr => h.meetAccumulated hr
  · exact h

end Grounded

theorem grounded (accumulated incoming : List (Slot ω)) (limit n : Nat) :
    Grounded accumulated incoming limit
      ((List.range n).foldl (step accumulated incoming) ⟨∅, limit⟩) := by
  apply List.foldlRecOn
  · refine ⟨fun r c hc => ?_, .inl rfl⟩
    cases hc
  · exact fun s h t _ => h.step t

end SlideScan

open SlideScan

theorem slideBound_le_limit (accumulated incoming : List (Slot ω)) (align : Alignment) :
    slideBound accumulated incoming align ≤ slideLimit accumulated incoming align :=
  (scanned accumulated incoming _ _).bound_le

theorem slideBound_le_max (accumulated incoming : List (Slot ω)) (align : Alignment) :
    slideBound accumulated incoming align ≤ max accumulated.length incoming.length := by
  have hle := slideBound_le_limit accumulated incoming align
  cases align <;> simp only [slideLimit] at hle <;> omega

variable {accumulated incoming : List (Slot ω)}

/-- Uses of one resource on both sides of the seam bound the slide by the sum of their distances. -/
theorem slideBound_le_add (align : Alignment) {r : Resource} {t k : Nat}
    (ht : UsedAt accumulated incoming r (.incoming t))
    (hk : UsedAt accumulated incoming r (.accumulated k)) :
    slideBound accumulated incoming align ≤ t + k := by
  have hscan := scanned accumulated incoming (slideLimit accumulated incoming align)
    (slideLimit accumulated incoming align)
  have hle := slideBound_le_limit accumulated incoming align
  refine Nat.le_of_not_lt fun hlt => ?_
  -- Both uses are nearer than the bound, so one and the same claim settles them.
  have hknows : ∀ u : Claim, UsedAt accumulated incoming r u → u.distance ≤ t + k →
      Knows _ r u := fun u hu hd => hscan.knows r u hu (by omega) (Nat.lt_of_le_of_lt hd hlt)
  obtain ⟨c, hc, hset⟩ := hknows _ ht (Nat.le_add_right t k)
  obtain ⟨c', hc', hset'⟩ := hknows _ hk (Nat.le_add_left k t)
  rw [hc] at hc'
  cases hc'
  exact absurd (hset.le_add hset') (Nat.not_le.2 hlt)

/-- After the slide every use of a resource comes after its uses in the accumulated schedule. -/
theorem slideBound_add_lt (align : Alignment) {i j : Nat} {a b : ω}
    (ha : a ∈ operationsAt accumulated i) (hb : b ∈ operationsAt incoming j)
    (h : SharesResource a b) :
    slideBound accumulated incoming align + i < accumulated.length + j := by
  obtain ⟨r, hra, hrb⟩ := h
  have hi := lt_length_of_mem_operationsAt ha
  have hrev : accumulated.reverse[accumulated.length - 1 - i]? = accumulated[i]? := by
    rw [List.getElem?_reverse (by omega)]
    congr 1
    omega
  have hk : UsedAt accumulated incoming r (.accumulated (accumulated.length - 1 - i)) := by
    refine List.mem_flatMap.2 ⟨a, ?_, hra⟩
    rw [operationsAt, hrev]
    exact ha
  have ht : UsedAt accumulated incoming r (.incoming j) := List.mem_flatMap.2 ⟨b, hb, hrb⟩
  have hle := slideBound_le_add align ht hk
  omega

/-- A schedule that has not slid as far as the alignment lets it is next to a use of one of its
resources. -/
theorem exists_slideBound_add_eq (align : Alignment)
    (h : slideBound accumulated incoming align ≠ slideLimit accumulated incoming align) :
    ∃ i j, ∃ a ∈ operationsAt accumulated i, ∃ b ∈ operationsAt incoming j, SharesResource a b ∧
      slideBound accumulated incoming align + i + 1 = accumulated.length + j := by
  rcases (grounded accumulated incoming _ _).attained with hlimit | ⟨r, t, k, ht, hk, hbound⟩
  · exact absurd hlimit h
  obtain ⟨b, hb, hrb⟩ := List.mem_flatMap.1 ht
  obtain ⟨a, ha, hra⟩ := List.mem_flatMap.1 hk
  have hlt : k < accumulated.length := by
    have := lt_length_of_mem_operationsAt ha
    rwa [List.length_reverse] at this
  have hrev : accumulated.reverse[k]? = accumulated[accumulated.length - 1 - k]? :=
    List.getElem?_reverse hlt
  rw [operationsAt, hrev] at ha
  refine ⟨accumulated.length - 1 - k, t, a, ha, b, hb, ⟨r, hra, hrb⟩, ?_⟩
  have hslide : slideBound accumulated incoming align = t + k := hbound
  omega

end Timetable
