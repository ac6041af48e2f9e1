/-!
# Lists in strictly increasing key order

Sets and maps over an ordered type are kept as lists whose keys strictly increase. This file
holds the one operation that builds such lists:

* `Increasing key l`: the keys of `l` strictly increase along the list.
* `place key x l`: `l` with `x` put where its key belongs, instead of an item of the same key.
* `increasing_place`: placing keeps the order, and `mem_place` says what placing adds.
-/

namespace Timetable.Ordered

variable {α κ : Type} [Ord κ]

/-- The keys of the list strictly increase from left to right. -/
def Increasing (key : α → κ) (l : List α) : Prop :=
  l.Pairwise fun a b => compare (key a) (key b) = .lt

/-- The list with `x` at the place of its key. An item of the same key gives way to `x`. -/
def place (key : α → κ) (x : α) : List α → List α
  | [] => [x]
  | a :: l =>
    match compare (key x) (key a) with
    | .lt => x :: a :: l
    | .eq => x :: l
    | .gt => a :: place key x l

theorem increasing_nil (key : α → κ) : Increasing key [] := List.Pairwise.nil

theorem mem_place {key : α → κ} {x y : α} {l : List α} (h : y ∈ place key x l) :
    y = x ∨ y ∈ l := by
  induction l with
  | nil => simpa [place] using h
  | cons a l ih =>
    rw [place] at h
    split at h
    · simpa using h
    · rcases List.mem_cons.1 h with h | h
      · exact .inl h
      · exact .inr (List.mem_cons_of_mem _ h)
    · rcases List.mem_cons.1 h with h | h
      · exact .inr (h ▸ List.mem_cons_self)
      · exact (ih h).imp id (List.mem_cons_of_mem _)

/-- Placing an item keeps the keys in order. -/
theorem increasing_place [Std.TransOrd κ] [Std.LawfulEqOrd κ] {key : α → κ} {l : List α} (x : α)
    (h : Increasing key l) : Increasing key (place key x l) := by
  induction l with
  | nil => exact List.pairwise_singleton _ _
  | cons a l ih =>
    obtain ⟨ha, hl⟩ := List.pairwise_cons.1 h
    rw [place]
    split
    · rename_i hx
      refine List.pairwise_cons.2 ⟨fun b hb => ?_, h⟩
      rcases List.mem_cons.1 hb with rfl | hb
      · exact hx
      · exact Std.TransCmp.lt_trans hx (ha b hb)
    · rename_i hx
      refine List.pairwise_cons.2 ⟨fun b hb => ?_, hl⟩
      rw [Std.LawfulEqCmp.eq_of_compare hx]
      exact ha b hb
    · rename_i hx
      refine List.pairwise_cons.2 ⟨fun b hb => ?_, ih hl⟩
      rcases mem_place hb with rfl | hb
      · exact Std.OrientedCmp.lt_of_gt hx
      · exact ha b hb

/-- Filtering keeps the keys in order. -/
theorem increasing_filter {key : α → κ} {l : List α} (keep : α → Bool) (h : Increasing key l) :
    Increasing key (l.filter keep) :=
  List.Pairwise.sublist List.filter_sublist h

end Timetable.Ordered
