import Timetable.Proofs.Merge.Mirror
import Mathlib.Order.Bounds.Basic

/-!
# The slide, said without the scan

The scan goes through both schedules at once, knows only the first claim of each resource, and lowers
its own limit on the way. What it finds depends on none of this. Each resource that both schedules
use allows one slide, by the use that is nearest to the seam on either side, and the schedule slides
by the least of these and of the limit. It is also the farthest that one can push the schedule, slot
by slot, before two operations on one resource meet.

* `slotsUsing`: the slots in which a resource is used.
* `NearestUses`: the slide that the nearest uses of a resource allow.
* `MeetAfter`: two operations on one resource are in one slot after a slide.
* `slideBound_exact`: the slide is the least of the one, and the greatest without the other.
-/

namespace Timetable

variable {ω : Type} [Operation ω]

def slotsUsing (slots : List (Slot ω)) (r : Resource) : Set Nat :=
  {i | ∃ op ∈ operationsAt slots i, r ∈ resources op}

/-- Some resource is used for the first time in slot `t` of the incoming schedule, and for the last
time `k` slots before the last one of the accumulated schedule, and `n` is the sum of the two. -/
def NearestUses (accumulated incoming : List (Slot ω)) (n : Nat) : Prop :=
  ∃ r t last k, IsLeast (slotsUsing incoming r) t ∧ IsGreatest (slotsUsing accumulated r) last ∧
    last + k + 1 = accumulated.length ∧ n = t + k

/-- When the incoming schedule has slid `d` slots over the accumulated one, two operations on one
resource are in the same slot. -/
def MeetAfter (accumulated incoming : List (Slot ω)) (d : Nat) : Prop :=
  ∃ i j, ∃ a ∈ operationsAt accumulated i, ∃ b ∈ operationsAt incoming j, SharesResource a b ∧
    d + i = accumulated.length + j

variable {accumulated incoming : List (Slot ω)}

/-! ### The least slide that a resource allows -/

/-- No resource allows less than the slide. -/
theorem slideBound_le_of_nearestUses (align : Alignment) {n : Nat}
    (h : NearestUses accumulated incoming n) : slideBound accumulated incoming align ≤ n := by
  obtain ⟨r, t, last, k, ⟨⟨b, hb, hrb⟩, -⟩, ⟨⟨a, ha, hra⟩, -⟩, hlast, rfl⟩ := h
  have hlt := slideBound_add_lt align ha hb ⟨r, hra, hrb⟩
  omega

/-- The uses that a slide stops at are the nearest ones: a nearer one would have stopped it before. -/
theorem nearestUses_of_ne_slideLimit (align : Alignment)
    (h : slideBound accumulated incoming align ≠ slideLimit accumulated incoming align) :
    NearestUses accumulated incoming (slideBound accumulated incoming align) := by
  obtain ⟨i, j, a, ha, b, hb, ⟨r, hra, hrb⟩, heq⟩ := exists_slideBound_add_eq align h
  have hi := lt_length_of_mem_operationsAt ha
  have hfirst : IsLeast (slotsUsing incoming r) j := by
    refine ⟨⟨b, hb, hrb⟩, ?_⟩
    rintro t ⟨c, hc, hrc⟩
    have hlt := slideBound_add_lt align ha hc ⟨r, hra, hrc⟩
    omega
  have hlast : IsGreatest (slotsUsing accumulated r) i := by
    refine ⟨⟨a, ha, hra⟩, ?_⟩
    rintro t ⟨c, hc, hrc⟩
    have hlt := slideBound_add_lt align hc hb ⟨r, hrc, hrb⟩
    omega
  exact ⟨r, j, i, accumulated.length - 1 - i, hfirst, hlast, by omega, by omega⟩

/-! ### The greatest slide without a meeting -/

theorem not_meetAfter_of_le_slideBound (align : Alignment) {d : Nat}
    (h : d ≤ slideBound accumulated incoming align) : ¬MeetAfter accumulated incoming d := by
  rintro ⟨i, j, a, ha, b, hb, hshare, heq⟩
  have hlt := slideBound_add_lt align ha hb hshare
  omega

/-- A schedule that has passed a use of one of its resources has met it on the way. -/
theorem le_slideBound_of_not_meetAfter {align : Alignment} {d : Nat}
    (hlimit : d ≤ slideLimit accumulated incoming align)
    (h : ∀ d' ≤ d, ¬MeetAfter accumulated incoming d') :
    d ≤ slideBound accumulated incoming align := by
  refine le_slideBound_iff.2 ⟨hlimit, fun i j a ha b hb hshare => ?_⟩
  have hi := lt_length_of_mem_operationsAt ha
  by_contra hpassed
  have hmeet : MeetAfter accumulated incoming (accumulated.length + j - i) :=
    ⟨i, j, a, ha, b, hb, hshare, by omega⟩
  exact h _ (by omega) hmeet

/-- **The scan finds the slide.** The slide is the least of the limit and of what the nearest uses of
each common resource allow. It is the greatest one within the limit for which neither it nor a
smaller one brings two operations on one resource into the same slot. -/
theorem slideBound_exact (accumulated incoming : List (Slot ω)) (align : Alignment) :
    IsLeast (insert (slideLimit accumulated incoming align)
        {n | NearestUses accumulated incoming n}) (slideBound accumulated incoming align) ∧
      IsGreatest {d | d ≤ slideLimit accumulated incoming align ∧
        ∀ d' ≤ d, ¬MeetAfter accumulated incoming d'} (slideBound accumulated incoming align) := by
  refine ⟨⟨?_, ?_⟩, ⟨slideBound_le_limit _ _ _, fun d' hd' =>
    not_meetAfter_of_le_slideBound align hd'⟩, ?_⟩
  · by_cases hlimit :
      slideBound accumulated incoming align = slideLimit accumulated incoming align
    · exact .inl hlimit
    · exact .inr (nearestUses_of_ne_slideLimit align hlimit)
  · rintro n (rfl | hn)
    · exact slideBound_le_limit _ _ _
    · exact slideBound_le_of_nearestUses align hn
  · rintro d ⟨hlimit, hfree⟩
    exact le_slideBound_of_not_meetAfter hlimit hfree

end Timetable
