import Timetable.Ordered.Place

/-!
# Finite sets over an ordered type

A `SortedSet α` is the strictly increasing list of its members, so two sets with the same members
are the same value, and the order in which a set is listed is part of what it is.
-/

namespace Timetable

/-- A finite set, kept as its members in strictly increasing order. -/
structure SortedSet (α : Type) [Ord α] where
  toList : List α
  increasing : Ordered.Increasing id toList

namespace SortedSet

variable {α : Type} [Ord α]

instance [DecidableEq α] : DecidableEq (SortedSet α) := fun a b =>
  decidable_of_iff (a.toList = b.toList) <| by cases a; cases b; simp

instance : EmptyCollection (SortedSet α) := ⟨⟨[], Ordered.increasing_nil _⟩⟩

instance : Membership α (SortedSet α) := ⟨fun s a => a ∈ s.toList⟩

/-- The member list determines the set. -/
theorem ext_toList {a b : SortedSet α} (h : a.toList = b.toList) : a = b := by
  cases a; cases b; simp_all

def contains (s : SortedSet α) (a : α) : Bool := s.toList.any fun b => compare a b == .eq

def isEmpty (s : SortedSet α) : Bool := s.toList.isEmpty

def erase (s : SortedSet α) (a : α) : SortedSet α :=
  ⟨s.toList.filter fun b => compare a b != .eq, Ordered.increasing_filter _ s.increasing⟩

variable [Std.TransOrd α] [Std.LawfulEqOrd α]

def insert (s : SortedSet α) (a : α) : SortedSet α :=
  ⟨Ordered.place id a s.toList, Ordered.increasing_place a s.increasing⟩

def insertAll (s : SortedSet α) (items : List α) : SortedSet α := items.foldl insert s

def ofList (items : List α) : SortedSet α := insertAll ∅ items

def union (a b : SortedSet α) : SortedSet α := a.insertAll b.toList

end SortedSet

end Timetable
