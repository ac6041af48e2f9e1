/-!
# Cutting a text at a mark

* `pieces`: the stretches of a text between the occurrences of a mark, empty ones included.
* `splitAtFirst`: what stands before and after the first occurrence of a mark.
* `join`: texts written one after the other with a separator between them.
* `pieces_of_not_mem`, `pieces_append_mark`, `splitAtFirst_append_mark`: the stretches of a text that
  is known to hold marks, or none.
-/

namespace Timetable.Text

/-- The stretches between the occurrences of the mark; a text without the mark is one stretch. -/
def pieces (mark : Char) : List Char → List (List Char)
  | [] => [[]]
  | c :: cs =>
    if c = mark then [] :: pieces mark cs
    else
      match pieces mark cs with
      | [] => [[c]]
      | first :: rest => (c :: first) :: rest

/-- What stands before and after the first occurrence of the mark. -/
def splitAtFirst (mark : Char) : List Char → Option (List Char × List Char)
  | [] => none
  | c :: cs =>
    if c = mark then some ([], cs)
    else (splitAtFirst mark cs).map fun parts => (c :: parts.1, parts.2)

def join (separator : String) (texts : List String) : String := separator.intercalate texts

theorem pieces_of_not_mem {mark : Char} {cs : List Char} (h : mark ∉ cs) :
    pieces mark cs = [cs] := by
  induction cs with
  | nil => rfl
  | cons c cs ih =>
    obtain ⟨hne, hmem⟩ := List.ne_and_not_mem_of_not_mem_cons h
    rw [pieces, if_neg (Ne.symm hne), ih hmem]

theorem pieces_append_mark {mark : Char} {cs : List Char} (h : mark ∉ cs) (rest : List Char) :
    pieces mark (cs ++ mark :: rest) = cs :: pieces mark rest := by
  induction cs with
  | nil => simp [pieces]
  | cons c cs ih =>
    obtain ⟨hne, hmem⟩ := List.ne_and_not_mem_of_not_mem_cons h
    rw [List.cons_append, pieces, if_neg (Ne.symm hne), ih hmem]

theorem splitAtFirst_eq_none_iff {mark : Char} {cs : List Char} :
    splitAtFirst mark cs = none ↔ mark ∉ cs := by
  induction cs with
  | nil => simp [splitAtFirst]
  | cons c cs ih =>
    by_cases h : c = mark
    · simp [splitAtFirst, h]
    · simp [splitAtFirst, h, ih, Ne.symm h]

theorem splitAtFirst_append_mark {mark : Char} {cs : List Char} (h : mark ∉ cs)
    (rest : List Char) : splitAtFirst mark (cs ++ mark :: rest) = some (cs, rest) := by
  induction cs with
  | nil => simp [splitAtFirst]
  | cons c cs ih =>
    obtain ⟨hne, hmem⟩ := List.ne_and_not_mem_of_not_mem_cons h
    rw [List.cons_append, splitAtFirst, if_neg (Ne.symm hne), ih hmem]
    rfl

/-- The two parts around the first mark make up the text. -/
theorem append_of_splitAtFirst {mark : Char} {cs a b : List Char}
    (h : splitAtFirst mark cs = some (a, b)) : cs = a ++ mark :: b := by
  induction cs generalizing a with
  | nil => simp [splitAtFirst] at h
  | cons c cs ih =>
    rw [splitAtFirst] at h
    split at h
    · simp_all
    · obtain ⟨⟨x, y⟩, hxy, he⟩ := Option.map_eq_some_iff.1 h
      obtain ⟨rfl, rfl⟩ := Prod.mk.inj he
      simp [← ih hxy]

end Timetable.Text
