import Timetable.Proofs.Ordered.Lookup
import Mathlib.Data.List.Nodup

/-!
# Maps and sets under new names

An injective function gives every key of a map, or every member of a set, a new name. The order of
the new names may be quite another one, so the entries are sorted again; what is found under a new
name is what was found under the old one.

* `SortedMap.mapKeys`, `SortedMap.get?_mapKeys`, `SortedMap.get?_mapKeys_eq_some_iff`: maps.
* `SortedMap.entries_mapKeys_perm`, `SortedMap.mem_keys_mapKeys`, `SortedMap.min?_values_mapKeys`:
  the listings of a map under new names.
* `SortedSet.image`, `SortedSet.mem_image`: sets.
-/

namespace Timetable

variable {κ κ' ν : Type} [Ord κ] [Std.LawfulEqOrd κ] [Ord κ'] [Std.TransOrd κ']
  [Std.LawfulEqOrd κ']

namespace SortedMap

/-- Entries with different keys are all in the map of them. -/
theorem entries_ofList_perm {entries : List (κ' × ν)} (h : (entries.map Prod.fst).Nodup) :
    (ofList entries).entries.Perm entries := by
  have hfold : ∀ m : SortedMap κ' ν, (entries.foldl (fun m e => m.insert e.1 e.2) m).entries =
      entries.foldl (fun l e => Ordered.place Prod.fst e l) m.entries :=
    fun m => (List.foldl_hom SortedMap.entries fun _ _ => rfl).symm
  rw [ofList, hfold]
  exact Ordered.perm_foldl_place (l := []) h

/-- The map with the keys `f k` instead of `k`, for a function that keeps keys apart. -/
def mapKeys (f : κ → κ') (m : SortedMap κ ν) : SortedMap κ' ν :=
  .ofList (m.entries.map fun e => (f e.1, e.2))

variable {f : κ → κ'} (hf : Function.Injective f)

include hf

theorem entries_mapKeys_perm (m : SortedMap κ ν) :
    (m.mapKeys f).entries.Perm (m.entries.map fun e => (f e.1, e.2)) := by
  refine entries_ofList_perm ?_
  have hkeys : (m.keys.map f).Nodup := m.increasing_keys.nodup.map hf
  simpa only [keys, List.map_map, Function.comp_def] using hkeys

theorem get?_mapKeys_eq_some_iff {m : SortedMap κ ν} {k' : κ'} {v : ν} :
    (m.mapKeys f).get? k' = some v ↔ ∃ k, f k = k' ∧ m.get? k = some v := by
  rw [← mem_entries_iff, (entries_mapKeys_perm hf m).mem_iff, List.mem_map]
  simp only [Prod.exists, Prod.mk.injEq, mem_entries_iff]
  constructor
  · rintro ⟨k, _, hget, hk, rfl⟩
    exact ⟨k, hk, hget⟩
  · rintro ⟨k, hk, hget⟩
    exact ⟨k, v, hget, hk, rfl⟩

/-- Under the new name of a key is what was under the key. -/
theorem get?_mapKeys (m : SortedMap κ ν) (k : κ) : (m.mapKeys f).get? (f k) = m.get? k := by
  refine Option.ext fun v => ?_
  rw [get?_mapKeys_eq_some_iff hf]
  constructor
  · rintro ⟨k', hk, hget⟩
    exact hf hk ▸ hget
  · exact fun hget => ⟨k, rfl, hget⟩

theorem mem_keys_mapKeys {m : SortedMap κ ν} {k' : κ'} :
    k' ∈ (m.mapKeys f).keys ↔ ∃ k ∈ m.keys, f k = k' := by
  rw [keys, ((entries_mapKeys_perm hf m).map Prod.fst).mem_iff, List.map_map, keys]
  simp

/-- The least value is the same, wherever it stands. -/
theorem min?_values_mapKeys (m : SortedMap κ Nat) :
    (m.mapKeys f).values.min? = m.values.min? := by
  have hmem : ∀ v, v ∈ (m.mapKeys f).values ↔ v ∈ m.values := by
    intro v
    rw [values, ((entries_mapKeys_perm hf m).map Prod.snd).mem_iff, List.map_map, values]
    rfl
  refine Option.ext fun v => ?_
  rw [List.min?_eq_some_iff, List.min?_eq_some_iff]
  simp only [hmem]

end SortedMap

namespace SortedSet

def image (f : κ → κ') (s : SortedSet κ) : SortedSet κ' := .ofList (s.toList.map f)

omit [Std.LawfulEqOrd κ] in
theorem mem_image {f : κ → κ'} {s : SortedSet κ} {b : κ'} : b ∈ s.image f ↔ ∃ a ∈ s, f a = b :=
  mem_ofList.trans List.mem_map

end SortedSet

end Timetable
