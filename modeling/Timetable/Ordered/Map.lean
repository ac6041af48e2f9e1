import Timetable.Ordered.Place

/-!
# Finite maps over an ordered type

A `SortedMap κ ν` is the list of its entries in strictly increasing key order, so two maps with
the same entries are the same value. The view of a map is its look-up `get?`; `entries` is the
order in which answers list it.
-/

namespace Timetable

/-- A finite map, kept as its entries in strictly increasing key order. -/
structure SortedMap (κ ν : Type) [Ord κ] where
  entries : List (κ × ν)
  increasing : Ordered.Increasing Prod.fst entries

namespace SortedMap

variable {κ ν : Type} [Ord κ]

instance [DecidableEq κ] [DecidableEq ν] : DecidableEq (SortedMap κ ν) := fun a b =>
  decidable_of_iff (a.entries = b.entries) <| by cases a; cases b; simp

instance : EmptyCollection (SortedMap κ ν) := ⟨⟨[], Ordered.increasing_nil _⟩⟩

/-- The entry list determines the map. -/
theorem ext_entries {a b : SortedMap κ ν} (h : a.entries = b.entries) : a = b := by
  cases a; cases b; simp_all

/-- The value under a key, found by walking the entries. -/
def get? (m : SortedMap κ ν) (k : κ) : Option ν :=
  (m.entries.find? fun e => compare e.1 k == .eq).map Prod.snd

def contains (m : SortedMap κ ν) (k : κ) : Bool := (m.get? k).isSome

def getD (m : SortedMap κ ν) (k : κ) (fallback : ν) : ν := (m.get? k).getD fallback

def keys (m : SortedMap κ ν) : List κ := m.entries.map Prod.fst

def values (m : SortedMap κ ν) : List ν := m.entries.map Prod.snd

/-- The map with its values changed; a value may change with its key. -/
def mapValues {μ : Type} (f : κ → ν → μ) (m : SortedMap κ ν) : SortedMap κ μ :=
  ⟨m.entries.map fun e => (e.1, f e.1 e.2), by
    simpa [Ordered.Increasing, List.pairwise_map] using m.increasing⟩

variable [Std.TransOrd κ] [Std.LawfulEqOrd κ]

def insert (m : SortedMap κ ν) (k : κ) (v : ν) : SortedMap κ ν :=
  ⟨Ordered.place Prod.fst (k, v) m.entries, Ordered.increasing_place _ m.increasing⟩

/-- The map of a list of entries; of several entries with one key the last one counts. -/
def ofList (entries : List (κ × ν)) : SortedMap κ ν :=
  entries.foldl (fun m e => m.insert e.1 e.2) ∅

end SortedMap

end Timetable
