import Timetable.Ordered.Map
import Timetable.Ordered.Set

/-!
# Maps and sets by their look-ups

A sorted map is determined by the look-up `get?` and a sorted set by its members, so what an
operation does is said by what it does to these two.

* `SortedMap.get?_insert`, `SortedMap.get?_mapValues`, `SortedMap.mem_entries_iff`,
  `SortedMap.mem_keys_iff`, `SortedMap.mem_values_iff`: the look-up of a changed map, and its
  listings in terms of the look-up.
* `SortedSet.mem_insert`, `SortedSet.mem_erase`, `SortedSet.contains_iff`: members of a changed set.
* `SortedMap.get?_ofList_map`, `SortedMap.ofList_entries`: the map that gives each key of a list its
  value, and the map of the entries of a map.
* `SortedMap.ext_get?`, `SortedSet.ext_mem`, `SortedMap.keys_eq_of_get?_isSome`: maps that find the
  same are the same, so are sets with the same members, and maps with the same keys list them alike.
* `Ordered.find?_eq_some_iff`, `Ordered.foldl_max_le_iff`: the least item that passes a test, and
  the greatest of some numbers.
* `Ordered.perm_foldl_place`: items with different keys, placed one after the other.
-/

namespace Timetable

namespace Ordered

variable {α κ : Type} [Ord κ] [Std.LawfulEqOrd κ]

theorem compare_beq_iff {a b : κ} : (compare a b == .eq) = true ↔ a = b := by
  rw [beq_iff_eq, Std.LawfulEqCmp.compare_eq_iff_eq]

theorem not_compare_self_lt (a : κ) : ¬compare a a = .lt := by simp

theorem not_compare_self_gt (a : κ) : ¬compare a a = .gt := by simp

/-- What is searched for by its key, after one item has been placed. -/
theorem find?_place [DecidableEq κ] (key : α → κ) (x : α) (l : List α) (j : κ) :
    (place key x l).find? (fun a => compare (key a) j == .eq)
      = if key x = j then some x else l.find? fun a => compare (key a) j == .eq := by
  induction l with
  | nil => by_cases h : key x = j <;> simp [place, h]
  | cons a l ih =>
    rw [place]
    split
    · by_cases h : key x = j <;> simp [h]
    · rename_i hx
      have hxa : key x = key a := Std.LawfulEqCmp.eq_of_compare hx
      by_cases h : key x = j
      · simp [h]
      · have ha : ¬key a = j := hxa ▸ h
        simp [h, ha]
    · rename_i hx
      have hxa : key x ≠ key a := fun he => not_compare_self_gt _ (he ▸ hx)
      rw [List.find?_cons, List.find?_cons, ih]
      by_cases ha : key a = j
      · have hxj : ¬key x = j := ha ▸ hxa
        simp [ha, hxj]
      · have hj : (compare (key a) j == .eq) = false := by simpa using ha
        rw [hj]

/-- Where items are their own keys, placing one adds just that one. -/
theorem mem_place_id {x y : κ} {l : List κ} : y ∈ place id x l ↔ y = x ∨ y ∈ l := by
  refine ⟨mem_place, ?_⟩
  induction l with
  | nil => simp [place]
  | cons a l ih =>
    intro h
    rw [place]
    split
    · simpa using h
    · rename_i hx
      have hxa : x = a := Std.LawfulEqCmp.eq_of_compare hx
      simpa [hxa] using h
    · rcases h with rfl | h
      · exact List.mem_cons_of_mem _ (ih (.inl rfl))
      · rcases List.mem_cons.1 h with rfl | h
        · exact List.mem_cons_self
        · exact List.mem_cons_of_mem _ (ih (.inr h))

/-- An item whose key is new is added to the items that there are. -/
theorem perm_place {key : α → κ} {x : α} {l : List α} (h : key x ∉ l.map key) :
    (place key x l).Perm (x :: l) := by
  induction l with
  | nil => exact .refl _
  | cons a l ih =>
    obtain ⟨hne, hmem⟩ := List.ne_and_not_mem_of_not_mem_cons h
    rw [place]
    split
    · exact .refl _
    · rename_i hx
      exact absurd (Std.LawfulEqCmp.eq_of_compare hx) hne
    · exact ((ih hmem).cons a).trans (.swap x a l)

/-- Items with different keys are all there after they have been placed one after the other. -/
theorem perm_foldl_place {key : α → κ} {items l : List α} (h : ((l ++ items).map key).Nodup) :
    (items.foldl (fun l x => place key x l) l).Perm (l ++ items) := by
  induction items generalizing l with
  | nil => simp
  | cons x items ih =>
    have hmiddle : ((x :: (l ++ items)).map key).Nodup :=
      ((List.perm_middle.map key).nodup_iff).1 h
    have hnew : key x ∉ l.map key := by
      rw [List.map_cons, List.map_append] at hmiddle
      exact fun hx => (List.nodup_cons.1 hmiddle).1 (List.mem_append_left _ hx)
    have hplaced : (place key x l ++ items).Perm (x :: (l ++ items)) :=
      (perm_place hnew).append_right items
    refine (ih (((hplaced.map key).nodup_iff).2 hmiddle)).trans (hplaced.trans ?_)
    exact List.perm_middle.symm

/-- A bound on the greatest of some numbers. -/
theorem foldl_max_le_iff {β : Type} (f : β → Nat) {l : List β} {n b : Nat} :
    l.foldl (fun n a => max n (f a)) n ≤ b ↔ n ≤ b ∧ ∀ a ∈ l, f a ≤ b := by
  induction l generalizing n with
  | nil => simp
  | cons a l ih => rw [List.foldl_cons, ih, Nat.max_le, List.forall_mem_cons, and_assoc]

/-- An item of an increasing list is the only one with its key. -/
theorem find?_of_mem {key : α → κ} {l : List α} (hl : Increasing key l) {a : α} (ha : a ∈ l) :
    l.find? (fun b => compare (key b) (key a) == .eq) = some a := by
  induction l with
  | nil => cases ha
  | cons b l ih =>
    obtain ⟨hb, hl⟩ := List.pairwise_cons.1 hl
    rcases List.mem_cons.1 ha with rfl | ha
    · simp
    · have hne : ¬key b = key a := fun he => not_compare_self_lt _ (he ▸ hb a ha)
      simpa [hne] using ih hl ha

/-- A list in increasing order names no item twice. -/
theorem Increasing.nodup {key : α → κ} {l : List α} (h : Increasing key l) : l.Nodup := by
  refine h.imp ?_
  intro a b hab heq
  subst heq
  exact not_compare_self_lt _ hab

/-- In a list in increasing order, the first item that passes a test is the least one. -/
theorem find?_eq_some_iff [Std.TransOrd κ] {l : List κ} (hl : Increasing id l) {keep : κ → Bool}
    {a : κ} : l.find? keep = some a ↔
      (a ∈ l ∧ keep a = true) ∧ ∀ b ∈ l, keep b = true → (compare a b).isLE = true := by
  constructor
  · intro h
    obtain ⟨hkeep, before, after, rfl, hbefore⟩ := List.find?_eq_some_iff_append.1 h
    refine ⟨⟨by simp, hkeep⟩, fun b hb hb' => ?_⟩
    rcases List.mem_append.1 hb with hb | hb
    · have := hbefore b hb
      simp [hb'] at this
    · rcases List.mem_cons.1 hb with rfl | hb
      · simp
      · have hlt : compare a b = .lt :=
          (List.pairwise_cons.1 (List.pairwise_append.1 hl).2.1).1 b hb
        rw [hlt]
        rfl
  · intro h
    obtain ⟨⟨ha, hkeep⟩, hleast⟩ := h
    obtain ⟨before, after, rfl⟩ := List.append_of_mem ha
    refine List.find?_eq_some_iff_append.2 ⟨hkeep, before, after, rfl, fun b hb => ?_⟩
    have hlt : compare b a = .lt := (List.pairwise_append.1 hl).2.2 b hb a List.mem_cons_self
    cases hb' : keep b with
    | false => rfl
    | true =>
      have hle := hleast b (List.mem_append_left _ hb) hb'
      rw [Std.OrientedCmp.gt_of_lt hlt] at hle
      cases hle

/-- Two lists in increasing order with the same members are one list. -/
theorem eq_of_mem_iff [Std.TransOrd κ] {key : α → κ} {l m : List α} (hl : Increasing key l)
    (hm : Increasing key m) (h : ∀ a, a ∈ l ↔ a ∈ m) : l = m := by
  have hperm : l.Perm m := (List.perm_ext_iff_of_nodup hl.nodup hm.nodup).2 h
  refine hperm.eq_of_pairwise ?_ hl hm
  intro a b _ _ hab hba
  exact absurd (Std.TransCmp.lt_trans hab hba) (not_compare_self_lt (key a))

end Ordered

namespace SortedMap

variable {κ ν : Type} [Ord κ]

@[simp]
theorem get?_empty (k : κ) : (∅ : SortedMap κ ν).get? k = none := rfl

theorem increasing_keys (m : SortedMap κ ν) : Ordered.Increasing id m.keys := by
  simpa [Ordered.Increasing, keys, List.pairwise_map] using m.increasing

theorem contains_iff {m : SortedMap κ ν} {k : κ} :
    m.contains k = true ↔ ∃ v, m.get? k = some v := by
  rw [contains, Option.isSome_iff_exists]

theorem contains_eq_false_iff {m : SortedMap κ ν} {k : κ} :
    m.contains k = false ↔ m.get? k = none := by
  rw [contains, Option.isSome_eq_false_iff, Option.isNone_iff_eq_none]

variable [Std.LawfulEqOrd κ]

/-- The entries are what the look-up finds. -/
theorem mem_entries_iff {m : SortedMap κ ν} {k : κ} {v : ν} :
    (k, v) ∈ m.entries ↔ m.get? k = some v := by
  constructor
  · intro h
    rw [get?, Ordered.find?_of_mem m.increasing h]
    rfl
  · intro h
    obtain ⟨e, he, rfl⟩ := Option.map_eq_some_iff.1 h
    have hk : e.1 = k := by simpa using List.find?_some he
    exact hk ▸ List.mem_of_find?_eq_some he

/-- What is found after all values have been changed. -/
theorem get?_mapValues {μ : Type} (f : κ → ν → μ) (m : SortedMap κ ν) (k : κ) :
    (m.mapValues f).get? k = (m.get? k).map (f k) := by
  refine Option.ext fun v => ?_
  rw [← mem_entries_iff, Option.map_eq_some_iff]
  constructor
  · intro h
    obtain ⟨e, he, heq⟩ := List.mem_map.1 h
    cases heq
    exact ⟨e.2, mem_entries_iff.1 he, rfl⟩
  · rintro ⟨w, hw, rfl⟩
    exact List.mem_map.2 ⟨(k, w), mem_entries_iff.2 hw, rfl⟩

theorem mem_keys_iff {m : SortedMap κ ν} {k : κ} : k ∈ m.keys ↔ ∃ v, m.get? k = some v := by
  simp [keys, mem_entries_iff]

theorem mem_values_iff {m : SortedMap κ ν} {v : ν} : v ∈ m.values ↔ ∃ k, m.get? k = some v := by
  simp [values, mem_entries_iff]

variable [Std.TransOrd κ]

@[simp]
theorem get?_insert [DecidableEq κ] (m : SortedMap κ ν) (k j : κ) (v : ν) :
    (m.insert k v).get? j = if k = j then some v else m.get? j := by
  rw [get?, insert, Ordered.find?_place]
  by_cases h : k = j <;> simp [h, get?]

theorem getD_insert [DecidableEq κ] (m : SortedMap κ ν) (k j : κ) (v d : ν) :
    (m.insert k v).getD j d = if k = j then v else m.getD j d := by
  rw [getD, get?_insert]
  split <;> rfl

/-- The map that gives each key of a list its value. -/
theorem get?_ofList_map [DecidableEq κ] (f : κ → ν) (ks : List κ) (k : κ) :
    (ofList (ks.map fun k => (k, f k))).get? k = if k ∈ ks then some (f k) else none := by
  have hfold : ∀ m : SortedMap κ ν,
      ((ks.map fun k => (k, f k)).foldl (fun m e => m.insert e.1 e.2) m).get? k
        = if k ∈ ks then some (f k) else m.get? k := by
    induction ks with
    | nil => simp
    | cons j ks ih =>
      intro m
      rw [List.map_cons, List.foldl_cons, ih, get?_insert]
      by_cases hk : k ∈ ks
      · simp [hk]
      · by_cases hj : j = k
        · simp [hj]
        · simp [hk, hj, Ne.symm hj]
  exact hfold ∅

theorem entries_foldl_insert (l : List (κ × ν)) (m : SortedMap κ ν) :
    (l.foldl (fun m e => m.insert e.1 e.2) m).entries
      = l.foldl (fun l e => Ordered.place Prod.fst e l) m.entries := by
  induction l generalizing m with
  | nil => rfl
  | cons e l ih => exact ih (m.insert e.1 e.2)

/-- A map is the map of its entries. -/
theorem ofList_entries (m : SortedMap κ ν) : ofList m.entries = m := by
  have hperm : (ofList m.entries).entries.Perm m.entries := by
    rw [ofList, entries_foldl_insert]
    exact Ordered.perm_foldl_place (l := []) m.increasing_keys.nodup
  exact ext_entries (Ordered.eq_of_mem_iff (ofList m.entries).increasing m.increasing
    fun e => hperm.mem_iff)

/-- Maps that find the same are the same. -/
theorem ext_get? {m m' : SortedMap κ ν} (h : ∀ k, m.get? k = m'.get? k) : m = m' := by
  refine ext_entries (Ordered.eq_of_mem_iff m.increasing m'.increasing fun e => ?_)
  rw [mem_entries_iff, mem_entries_iff, h e.1]

/-- Maps with the same keys list them in the same order. -/
theorem keys_eq_of_get?_isSome {μ : Type} {m : SortedMap κ ν} {m' : SortedMap κ μ}
    (h : ∀ k, (∃ v, m.get? k = some v) ↔ ∃ v, m'.get? k = some v) : m.keys = m'.keys :=
  Ordered.eq_of_mem_iff m.increasing_keys m'.increasing_keys fun k => by
    rw [mem_keys_iff, mem_keys_iff, h k]

end SortedMap

namespace SortedSet

variable {α : Type} [Ord α]

theorem not_mem_empty (a : α) : a ∉ (∅ : SortedSet α) := fun h => nomatch h

variable [Std.LawfulEqOrd α]

theorem contains_iff {s : SortedSet α} {a : α} : s.contains a = true ↔ a ∈ s := by
  simp only [contains, List.any_eq_true, Ordered.compare_beq_iff]
  constructor
  · intro h
    obtain ⟨b, hb, rfl⟩ := h
    exact hb
  · exact fun h => ⟨a, h, rfl⟩

theorem mem_erase {s : SortedSet α} {a b : α} : b ∈ s.erase a ↔ b ∈ s ∧ a ≠ b := by
  show b ∈ s.toList.filter _ ↔ b ∈ s.toList ∧ a ≠ b
  simp

variable [Std.TransOrd α]

theorem mem_insert {s : SortedSet α} {a b : α} : b ∈ s.insert a ↔ b = a ∨ b ∈ s :=
  Ordered.mem_place_id

theorem mem_insertAll {s : SortedSet α} {items : List α} {b : α} :
    b ∈ s.insertAll items ↔ b ∈ s ∨ b ∈ items := by
  induction items generalizing s with
  | nil => simp [insertAll]
  | cons a items ih =>
    rw [insertAll, List.foldl_cons, ← insertAll, ih, mem_insert, List.mem_cons]
    exact ⟨fun h => by rcases h with (h | h) | h <;> simp [h],
      fun h => by rcases h with h | h | h <;> simp [h]⟩

theorem mem_ofList {items : List α} {b : α} : b ∈ ofList items ↔ b ∈ items :=
  mem_insertAll.trans (or_iff_right (not_mem_empty b))

/-- Sets with the same members are the same. -/
theorem ext_mem {s t : SortedSet α} (h : ∀ a, a ∈ s ↔ a ∈ t) : s = t :=
  ext_toList (Ordered.eq_of_mem_iff s.increasing t.increasing h)

theorem mem_union {s t : SortedSet α} {b : α} : b ∈ s.union t ↔ b ∈ s ∨ b ∈ t :=
  mem_insertAll

end SortedSet

end Timetable
