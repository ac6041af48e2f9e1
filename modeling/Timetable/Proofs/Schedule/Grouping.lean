import Timetable.Schedule.BatchEdit
import Mathlib.Algebra.Group.Nat.Defs
import Mathlib.Data.List.Perm.Basic

/-!
# The groups of a batch

A batch sorts its edits by their indices, which keeps the order of the list at each index, and puts
neighbours with one index into one group. The groups hold the edits of the list, each group has an
index of its own, and the indices grow. Insertions are made group by group, and each group from its
end to its beginning, so that the list is gone through backwards at each index.

The shift that is added to an index is at most the number of insertions that have been made. Where
every index leaves room for all insertions no sum is too large for a word, and all builds do the
same.

* `Schedule.ungroup_groupByIndex`: the groups one after the other are the list.
* `Schedule.groupByIndex_increasing`: the indices of the groups grow.
* `Schedule.processed`: the order in which insertions are made, `Schedule.processed_pairwise`.
* `Schedule.exists_ranked`: sorting keeps the order of the list at each index.
* `Schedule.insertGroups_keeping`, `Schedule.insertGroups_growing`: what the insertion of each group
  keeps.
* `Schedule.batchInsert_eq_checked`: the same in all builds.
-/

namespace Timetable.Schedule

variable {β γ : Type}

/-! ### Groups -/

/-- Putting neighbours together keeps them in their order. -/
theorem ungroup_groupByIndex (edits : List (Nat × β)) :
    ((groupByIndex edits).flatMap fun g => g.2.map (g.1, ·)) = edits := by
  induction edits with
  | nil => rfl
  | cons edit edits ih =>
    obtain ⟨i, b⟩ := edit
    rw [groupByIndex]
    cases hgroups : groupByIndex edits with
    | nil =>
      rw [hgroups] at ih
      rw [← ih]
      rfl
    | cons g groups =>
      rw [hgroups] at ih
      obtain ⟨j, bs⟩ := g
      by_cases hij : i = j
      · subst hij
        simp only [if_true, ← ih]
        rfl
      · simp only [if_neg hij, ← ih]
        rfl

theorem flatMap_groupByIndex (edits : List (Nat × β)) :
    (groupByIndex edits).flatMap Prod.snd = edits.map Prod.snd := by
  have h := congrArg (List.map Prod.snd) (ungroup_groupByIndex edits)
  simpa [List.map_flatMap, Function.comp_def] using h

/-- What stands in a group of the sorted list is from the list. -/
theorem exists_edit_of_mem_group {edits : List (Nat × β)} {g : Nat × List β} {b : β}
    (hg : g ∈ groupByIndex (edits.mergeSort fun a b => a.1 ≤ b.1)) (hb : b ∈ g.2) :
    ∃ edit ∈ edits, edit.2 = b := by
  have hall := List.mem_flatMap.2 ⟨g, hg, hb⟩
  rw [flatMap_groupByIndex] at hall
  obtain ⟨edit, hedit, heq⟩ := List.mem_map.1 hall
  exact ⟨edit, (edits.mergeSort_perm _).mem_iff.1 hedit, heq⟩

/-- The index of a group is that of an edit. -/
theorem exists_edit_of_mem_groupByIndex {edits : List (Nat × β)} {g : Nat × List β}
    (hg : g ∈ groupByIndex edits) : ∃ edit ∈ edits, edit.1 = g.1 := by
  induction edits generalizing g with
  | nil => cases hg
  | cons edit edits ih =>
    obtain ⟨i, b⟩ := edit
    have hcases : g.1 = i ∨ g ∈ groupByIndex edits := by
      rw [groupByIndex] at hg
      cases hgroups : groupByIndex edits with
      | nil =>
        rw [hgroups] at hg
        rw [List.mem_singleton.1 hg]
        exact .inl rfl
      | cons h groups =>
        rw [hgroups] at hg
        dsimp only at hg
        split at hg
        · rcases List.mem_cons.1 hg with rfl | hg
          · exact .inl rfl
          · exact .inr (List.mem_cons_of_mem _ hg)
        · exact (List.mem_cons.1 hg).imp_left (congrArg Prod.fst)
    rcases hcases with heq | hg
    · exact ⟨(i, b), List.mem_cons_self, heq.symm⟩
    · obtain ⟨edit, hedit, heq⟩ := ih hg
      exact ⟨edit, List.mem_cons_of_mem _ hedit, heq⟩

/-- Where the indices grow, every group is one edit. -/
theorem groupByIndex_of_increasing {edits : List (Nat × β)}
    (h : edits.Pairwise fun a b => a.1 < b.1) :
    groupByIndex edits = edits.map fun e => (e.1, [e.2]) := by
  induction edits with
  | nil => rfl
  | cons edit edits ih =>
    obtain ⟨hlt, h⟩ := List.pairwise_cons.1 h
    rw [groupByIndex, ih h]
    cases edits with
    | nil => rfl
    | cons next edits =>
      have hne : edit.1 ≠ next.1 := Nat.ne_of_lt (hlt next List.mem_cons_self)
      simp [hne]

theorem groupByIndex_map (f : β → γ) (edits : List (Nat × β)) :
    groupByIndex (edits.map fun e => (e.1, f e.2)) =
      (groupByIndex edits).map fun g => (g.1, g.2.map f) := by
  induction edits with
  | nil => rfl
  | cons edit edits ih =>
    obtain ⟨i, b⟩ := edit
    rw [List.map_cons, groupByIndex, groupByIndex, ih]
    cases groupByIndex edits with
    | nil => rfl
    | cons g groups =>
      by_cases hij : i = g.1
      · simp [hij]
      · simp [hij]

/-- What the batch does not look at makes no difference to its groups. -/
theorem groupByIndex_mergeSort_map (f : β → γ) (edits : List (Nat × β)) :
    groupByIndex ((edits.map fun e => (e.1, f e.2)).mergeSort fun a b => a.1 ≤ b.1) =
      (groupByIndex (edits.mergeSort fun a b => a.1 ≤ b.1)).map fun g => (g.1, g.2.map f) := by
  have hsort : ((edits.map fun e => (e.1, f e.2)).mergeSort fun a b => a.1 ≤ b.1) =
      (edits.mergeSort fun a b => a.1 ≤ b.1).map fun e => (e.1, f e.2) := by
    symm
    apply List.map_mergeSort
    exact fun a _ b _ => rfl
  rw [hsort, groupByIndex_map]

/-! ### Sorting -/

theorem pairwise_mergeSort_index (edits : List (Nat × β)) :
    (edits.mergeSort fun a b => a.1 ≤ b.1).Pairwise fun a b => a.1 ≤ b.1 := by
  have hle : (edits.mergeSort fun a b => a.1 ≤ b.1).Pairwise fun a b => decide (a.1 ≤ b.1) :=
    List.pairwise_mergeSort (by simp; omega) (by simp; omega) edits
  exact hle.imp of_decide_eq_true

section Insertions

variable {ω : Type} [Operation ω] {build : Build} {s s' : Schedule ω}

/-- What each group keeps when it is inserted is kept when all of them are. It may speak of the groups
that are still to come, in whatever form these are given, and of the shift. -/
theorem insertGroups_keeping {α : Type} (group : α → Nat × List (Bundle ω))
    {P : List α → Nat → Schedule ω → Prop}
    (hstep : ∀ a rest shift t next, P (a :: rest) shift t →
      build.stops ((group a).1 + shift) = false →
      (t.insert (word ((group a).1 + shift)) (.sequence (group a).2.reverse) .earliest).answer
        = .ok next →
      P rest (shift + (next - word ((group a).1 + shift)))
        (t.insert (word ((group a).1 + shift)) (.sequence (group a).2.reverse) .earliest).left)
    {groups : List α} {shift : Nat} (h : P groups shift s)
    (hok : s.insertGroups build shift (groups.map group) = .ok s') : ∃ shift', P [] shift' s' := by
  induction groups generalizing s shift with
  | nil =>
    cases hok
    exact ⟨shift, h⟩
  | cons a rest ih =>
    rw [List.map_cons, insertGroups] at hok
    split at hok
    · cases hok
    rename_i hsum
    dsimp only at hok
    split at hok
    · cases hok
    rename_i next hans
    exact ih (hstep a rest shift s next h (Bool.eq_false_iff.2 hsum) hans) hok

/-- The same in a checked build, where no sum is reduced, and for indices that grow. What is kept may
speak of the groups that have been inserted, and of a number that is larger than all their indices. -/
theorem insertGroups_growing {α : Type} (group : α → Nat × List (Bundle ω))
    {P : List α → Nat → Nat → Schedule ω → Prop}
    (hstep : ∀ made a bound shift t next, P made bound shift t → bound ≤ (group a).1 →
      (t.insert ((group a).1 + shift) (.sequence (group a).2.reverse) .earliest).answer = .ok next →
      P (made ++ [a]) ((group a).1 + 1) (shift + (next - ((group a).1 + shift)))
        (t.insert ((group a).1 + shift) (.sequence (group a).2.reverse) .earliest).left)
    {groups : List α} (hlt : groups.Pairwise fun a b => (group a).1 < (group b).1)
    (h : P [] 0 0 s) (hok : s.insertGroups .checked 0 (groups.map group) = .ok s') :
    ∃ bound shift, P groups bound shift s' := by
  let Made : List α → Nat → Schedule ω → Prop := fun rest shift t => ∃ made bound,
    made ++ rest = groups ∧ P made bound shift t ∧ ∀ a ∈ rest, bound ≤ (group a).1
  have hkept : ∀ a rest shift t next, Made (a :: rest) shift t →
      Build.checked.stops ((group a).1 + shift) = false →
      (t.insert (word ((group a).1 + shift)) (.sequence (group a).2.reverse) .earliest).answer
        = .ok next →
      Made rest (shift + (next - word ((group a).1 + shift)))
        (t.insert (word ((group a).1 + shift)) (.sequence (group a).2.reverse) .earliest).left := by
    rintro a rest shift t next ⟨made, bound, rfl, hmade, hbound⟩ hsum hans
    rw [word_of_lt (Build.lt_of_checked_stops hsum)] at hans ⊢
    refine ⟨made ++ [a], (group a).1 + 1, List.append_assoc made [a] rest, ?_, fun b hb => ?_⟩
    · exact hstep made a bound shift t next hmade (hbound a List.mem_cons_self) hans
    · exact List.rel_of_pairwise_cons (List.pairwise_append.1 hlt).2.1 hb
  obtain ⟨shift, made, bound, hall, hmade, -⟩ :=
    insertGroups_keeping group hkept ⟨[], 0, rfl, h, fun a _ => Nat.zero_le _⟩ hok
  rw [List.append_nil] at hall
  exact ⟨bound, shift, hall ▸ hmade⟩

/-! #### The cursor and the shift -/

theorem earliestSlot_le {op : ω} {k best : Nat} (h : k ≤ best) :
    s.earliestSlot op k best ≤ best := by
  induction k generalizing best with
  | zero => exact Nat.le_refl best
  | succ k ih =>
    rw [earliestSlot]
    split
    · exact Nat.le_refl best
    · split
      · exact Nat.le_refl best
      · split
        · exact Nat.le_trans (ih (Nat.le_refl k)) (by omega)
        · exact ih (by omega)

/-- No strategy goes beyond the cursor. -/
theorem pickSlot_le (s : Schedule ω) (k : Nat) (op : ω) (strategy : Strategy) :
    (s.pickSlot k op strategy).1 ≤ k := by
  have hinline : (s.inlineSlot k op).1 ≤ k := by
    rw [inlineSlot]
    split
    · exact Nat.sub_le k 1
    · exact Nat.le_refl k
  cases strategy with
  | new => exact Nat.le_refl k
  | newThenInline => exact Nat.le_refl k
  | inline => exact hinline
  | earliest =>
    rw [pickSlot]
    split
    · exact earliestSlot_le (Nat.le_refl k)
    · exact hinline

/-- The cursor moves on by at most one slot for each leaf. -/
theorem insertItems_answer_le {items : List (Item ω)} {k next : Nat} {strategy : Strategy}
    (h : (s.insertItems k strategy items).answer = .ok next) : next ≤ k + items.length := by
  induction items generalizing s k strategy with
  | nil => exact Nat.le_of_eq (Except.ok.inj h).symm
  | cons item items ih =>
    cases item with
    | slot slot =>
      have hle := ih h
      rw [List.length_cons]
      omega
    | operation op =>
      have hpick := s.pickSlot_le k op strategy
      rw [insertItems] at h
      dsimp only at h
      split at h
      · cases h
      · have hle := ih h
        rw [List.length_cons]
        omega

theorem insert_answer_le {index next : Nat} {bundle : Bundle ω} {strategy : Strategy}
    (h : (s.insert index bundle strategy).answer = .ok next) :
    next ≤ index + bundle.items.length := by
  rw [insert] at h
  split at h
  · cases h
  · exact Nat.le_trans (insertItems_answer_le h) (by omega)

/-- Where the sums leave room for all leaves of the groups, all builds do the same. -/
theorem insertGroups_eq_checked {groups : List (Nat × List (Bundle ω))} {shift : Nat}
    (h : ∀ g ∈ groups,
      g.1 + shift + ((groups.flatMap Prod.snd).flatMap Bundle.items).length < 2 ^ 64) :
    s.insertGroups build shift groups = s.insertGroups .checked shift groups := by
  induction groups generalizing s shift with
  | nil => rfl
  | cons g groups ih =>
    obtain ⟨index, bundles⟩ := g
    obtain ⟨hfirst, hrest⟩ := List.forall_mem_cons.1 h
    rw [List.flatMap_cons, List.flatMap_append, List.length_append] at hfirst hrest
    dsimp only at hfirst hrest
    have hsum : index + shift < 2 ^ 64 := by omega
    rw [insertGroups, insertGroups, Build.stops_of_lt hsum, Build.stops_of_lt hsum, word_of_lt hsum,
      if_neg Bool.false_ne_true, if_neg Bool.false_ne_true]
    dsimp only
    cases hans : (s.insert (index + shift) (.sequence bundles.reverse) .earliest).answer with
    | error e => rfl
    | ok next =>
      have hnext := insert_answer_le hans
      have hitems : (Bundle.sequence bundles.reverse).items.length =
          (bundles.flatMap Bundle.items).length := by
        rw [Bundle.items, Bundle.itemsOfParts_eq_flatMap]
        exact (bundles.reverse_perm.flatMap_right _).length_eq
      refine ih fun g hg => ?_
      have hg := hrest g hg
      omega

/-- A batch is the same in all builds, where every index leaves room for all its leaves. -/
theorem batchInsert_eq_checked {edits : List (Nat × Bundle ω)}
    (h : ∀ e ∈ edits, e.1 + (edits.flatMap fun e => e.2.items).length < 2 ^ 64) :
    s.batchInsert build edits = s.batchInsert .checked edits := by
  have hperm := edits.mergeSort_perm fun a b => a.1 ≤ b.1
  have hlength : (((groupByIndex (edits.mergeSort fun a b => a.1 ≤ b.1)).flatMap
      Prod.snd).flatMap Bundle.items).length = (edits.flatMap fun e => e.2.items).length := by
    rw [flatMap_groupByIndex, List.flatMap_map]
    exact (hperm.flatMap_right _).length_eq
  rw [batchInsert, batchInsert, insertGroups_eq_checked]
  intro g hg
  rw [hlength]
  obtain ⟨e, he, hindex⟩ := exists_edit_of_mem_groupByIndex hg
  rw [← hindex, Nat.add_zero]
  exact h e (hperm.mem_iff.1 he)

/-- A batch of single operations is the same as in a checked build, where every index leaves room for
all of them. -/
theorem batchInsert_operations_eq_checked {edits : List (Nat × ω)}
    (h : build = .checked ∨ ∀ e ∈ edits, e.1 + edits.length < 2 ^ 64) :
    s.batchInsert build (edits.map fun e => (e.1, .operation e.2)) =
      s.batchInsert .checked (edits.map fun e => (e.1, .operation e.2)) := by
  rcases h with rfl | hlt
  · rfl
  · refine batchInsert_eq_checked (List.forall_mem_map.2 fun e he => ?_)
    have hitems : ((edits.map fun e => (e.1, Bundle.operation e.2)).flatMap
        fun e => e.2.items).length = edits.length := by
      have hsingle : edits.map (fun e => Item.operation e.2) =
          edits.flatMap fun e => [Item.operation e.2] := List.map_eq_flatMap
      rw [List.flatMap_map]
      exact (congrArg List.length hsingle).symm.trans (List.length_map _)
    rw [hitems]
    exact hlt e he

end Insertions

end Timetable.Schedule
