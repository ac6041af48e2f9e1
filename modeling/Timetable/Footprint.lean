import Timetable.Key

/-!
# Footprints

The keys that an operation or a whole slot reads and writes. Two footprints are ordered against
each other when one reads what the other writes; a key that both only write orders nothing.

* `Footprint.orderedAgainst`: the test, and `orderedAgainst_comm`: it does not matter which of the
  two is asked.
* `Footprint.merge`: the footprint of two things together.
-/

namespace Timetable

/-- The keys that something reads and writes. -/
structure Footprint where
  reads : KeySet := ∅
  writes : KeySet := ∅
  deriving DecidableEq

namespace Footprint

/-- Whether the two sets have a member in common. -/
def meets (a b : KeySet) : Bool := a.toList.any b.contains

def readsFrom (a b : Footprint) : Bool := meets a.reads b.writes

def writesTo (a b : Footprint) : Bool := meets a.writes b.reads

/-- Whether one of the two footprints reads what the other one writes. -/
def orderedAgainst (a b : Footprint) : Bool := a.readsFrom b || a.writesTo b

def isEmpty (a : Footprint) : Bool := a.reads.isEmpty && a.writes.isEmpty

def merge (a b : Footprint) : Footprint := ⟨a.reads.union b.reads, a.writes.union b.writes⟩

theorem meets_iff {a b : KeySet} : meets a b = true ↔ ∃ k, k ∈ a ∧ k ∈ b := by
  simp only [meets, SortedSet.contains, List.any_eq_true, beq_iff_eq,
    Std.LawfulEqCmp.compare_eq_iff_eq]
  constructor
  · rintro ⟨k, hk, j, hj, rfl⟩
    exact ⟨k, hk, hj⟩
  · rintro ⟨k, ha, hb⟩
    exact ⟨k, ha, k, hb, rfl⟩

theorem meets_comm (a b : KeySet) : meets a b = meets b a := by
  rw [Bool.eq_iff_iff, meets_iff, meets_iff]
  constructor <;> exact fun ⟨k, h, h'⟩ => ⟨k, h', h⟩

theorem orderedAgainst_comm (a b : Footprint) : a.orderedAgainst b = b.orderedAgainst a := by
  simp only [orderedAgainst, readsFrom, writesTo]
  rw [meets_comm a.reads, meets_comm a.writes, Bool.or_comm]

end Footprint

end Timetable
