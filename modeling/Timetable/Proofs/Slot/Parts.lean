import Timetable.Proofs.Slot.Sound
import Mathlib.Data.List.Flatten

/-!
# Parts of sound slots

Taking operations out of a slot moves the others to new places, so the index is built anew. The new
index is exact again.

* `Slot.get?_foldl_enter`: the index of operations with their places.
* `Slot.actsOnAny_iff`: which operations a projection keeps.
* `Slot.ofApart`, `Slot.ofOperations_eq_ok_iff`: the slot of operations that share no resource;
  `Slot.mapOperations` is that of changed operations, `Slot.sound_map_ofApart` is about several.
* `Slot.Sound.filter`: some of the operations of a sound slot are a sound slot.
-/

namespace Timetable.Slot

variable {ω : Type}

theorem get?_foldl_insert (rs : List Resource) (index : SortedMap Resource Nat) (p : Nat)
    (j : Resource) :
    (rs.foldl (fun m r => m.insert r p) index).get? j
      = if j ∈ rs then some p else index.get? j := by
  induction rs generalizing index with
  | nil => simp
  | cons r rs ih =>
    rw [List.foldl_cons, ih, SortedMap.get?_insert]
    by_cases hj : j ∈ rs
    · simp [hj]
    · by_cases hr : r = j
      · simp [hr]
      · simp [hj, hr, Ne.symm hr]

/-- What is entered for operations that share no resource is found under their resources, and only
there. -/
theorem get?_foldl_enter (uses : ω → List Resource) {l : List (ω × Nat)}
    (hnd : (l.flatMap fun e => uses e.1).Nodup) (index : SortedMap Resource Nat) (r : Resource)
    (p : Nat) :
    (l.foldl (fun index e => (uses e.1).foldl (fun m r => m.insert r e.2) index) index).get? r
        = some p ↔
      (∃ op, (op, p) ∈ l ∧ r ∈ uses op) ∨
        (r ∉ l.flatMap fun e => uses e.1) ∧ index.get? r = some p := by
  induction l generalizing index with
  | nil => simp
  | cons e l ih =>
    rw [List.flatMap_cons, List.nodup_append] at hnd
    obtain ⟨-, hnd, hdisj⟩ := hnd
    rw [List.foldl_cons, ih hnd, get?_foldl_insert, List.flatMap_cons, List.mem_append]
    constructor
    · intro h
      rcases h with ⟨op, hop, hr⟩ | ⟨hr, hget⟩
      · exact .inl ⟨op, List.mem_cons_of_mem _ hop, hr⟩
      · split at hget
        · rename_i hre
          exact .inl ⟨e.1, Option.some.inj hget ▸ List.mem_cons_self, hre⟩
        · rename_i hre
          exact .inr ⟨fun h => h.elim hre hr, hget⟩
    · intro h
      rcases h with ⟨op, hop, hr⟩ | ⟨hr, hget⟩
      · rcases List.mem_cons.1 hop with rfl | hop
        · refine .inr ⟨fun hmem => hdisj r hr r hmem rfl, ?_⟩
          rw [if_pos hr]
        · exact .inl ⟨op, hop, hr⟩
      · rw [not_or] at hr
        exact .inr ⟨hr.2, by rw [if_neg hr.1]; exact hget⟩

variable [Operation ω]

theorem actsOnAny_iff {rs : List Resource} {op : ω} :
    actsOnAny rs op = true ↔ ∃ r ∈ resources op, r ∈ rs := by
  rw [actsOnAny, List.any_eq_true]
  simp only [List.contains_iff_mem]

/-- The slot of operations that are known to share no resource. -/
def ofApart (ops : List ω) : Slot ω := ⟨ops, indexBy resources ops⟩

@[simp]
theorem operations_ofApart (ops : List ω) : (ofApart ops).operations = ops := rfl

/-- The slot of the changed operations, which are to share no resource. -/
def mapOperations (m : ω → ω) (s : Slot ω) : Slot ω := ofApart (s.operations.map m)

@[simp]
theorem operations_mapOperations (m : ω → ω) (s : Slot ω) :
    (s.mapOperations m).operations = s.operations.map m := rfl

theorem mapOperations_congr {m m' : ω → ω} {s : Slot ω} (h : ∀ op ∈ s.operations, m op = m' op) :
    s.mapOperations m = s.mapOperations m' :=
  congrArg ofApart (List.map_congr_left h)

theorem mapOperations_mapOperations {m m' k : ω → ω} {s : Slot ω}
    (h : ∀ op ∈ s.operations, m' (m op) = k op) :
    (s.mapOperations m).mapOperations m' = s.mapOperations k := by
  rw [mapOperations, operations_mapOperations, List.map_map]
  exact mapOperations_congr h

theorem sound_ofApart {ops : List ω} (hnd : (ops.flatMap resources).Nodup) :
    (ofApart ops).Sound := by
  refine ⟨hnd, fun r p => ?_⟩
  have hplaces : (ops.zipIdx.flatMap fun e => resources e.1).Nodup := by
    rw [← List.flatMap_map, List.zipIdx_map_fst]
    exact hnd
  show (indexBy resources ops).get? r = some p ↔ _
  rw [indexBy, get?_foldl_enter resources hplaces]
  simp [List.mem_zipIdx_iff_getElem?]

theorem sound_map_ofApart {lists : List (List ω)}
    (hnd : ∀ ops ∈ lists, (ops.flatMap resources).Nodup) :
    ∀ slot ∈ lists.map ofApart, slot.Sound := by
  intro slot hslot
  obtain ⟨ops, hops, rfl⟩ := List.mem_map.1 hslot
  exact sound_ofApart (hnd ops hops)

/-- Operations make a slot exactly when they share no resource, and there is one slot of them. -/
theorem ofOperations_eq_ok_iff {ops : List ω} {s : Slot ω} :
    ofOperations ops = .ok s ↔ (ops.flatMap resources).Nodup ∧ s = ofApart ops := by
  have hsound : ∀ {t : Slot ω}, ofOperations ops = .ok t →
      (ops.flatMap resources).Nodup ∧ t = ofApart ops := by
    intro t h
    have ht := Sound.ofOperations h
    have hops : t.operations = ops := operations_of_pushAll h
    have hnd : (ops.flatMap resources).Nodup := hops ▸ ht.usesOnce
    exact ⟨hnd, ht.ext (sound_ofApart hnd) hops⟩
  constructor
  · exact hsound
  · intro h
    obtain ⟨hnd, rfl⟩ := h
    obtain ⟨t, ht⟩ := sound_empty.pushAll_eq_ok_iff.2 hnd
    rw [← (hsound ht).2]
    exact ht

namespace Sound

variable {s : Slot ω}

theorem eq_ofApart (hs : s.Sound) : s = ofApart s.operations :=
  hs.ext (sound_ofApart hs.usesOnce) rfl

theorem mapOperations_eq_self (hs : s.Sound) {m : ω → ω} (h : ∀ op ∈ s.operations, m op = op) :
    s.mapOperations m = s := by
  rw [mapOperations_congr h, mapOperations, List.map_id', ← hs.eq_ofApart]

/-- Some of the operations of a sound slot. -/
theorem filter (hs : s.Sound) (keep : ω → Bool) : (s.filter keep).Sound :=
  sound_ofApart ((List.filter_sublist.flatMap resources).nodup hs.usesOnce)

end Sound

end Timetable.Slot
