import Timetable.Proofs.Ordered.Lookup
import Timetable.Report
import Timetable.Resource.Text
import Mathlib.Data.List.Nodup

/-!
# Resources read back

The written form of a resource is read back as that resource. Three spellings compete for a text:
that of a place, that of a cell, and the name as it stands. A place or a cell is never taken for
something else: its written form has no quote in front and no white space at its ends, and its
second character shows which of the two it is. A name is quoted unless the reader of unquoted tokens
answers that very name, so a name has only to survive the quotes or that reader.

* `Resource.readToken_of_quoted`, `Resource.readToken_of_unquoted`: the two ways to read a token.
* `Resource.parse_render_line`, `Resource.parse_render_grid`, `Resource.parse_render_named`: the
  three kinds of resource.
* `Resource.render_readable`: reading takes back what writing gives, so that written forms tell
  resources apart and a frontier in JSON has a member for each of its resources.
-/

namespace Timetable

open Text

namespace Resource

/-! ### Tokens with and without quotes -/

theorem stripEnd?_concat (last : Char) (cs : List Char) :
    stripEnd? last (cs ++ [last]) = some cs := by
  simp [stripEnd?]

theorem quotedName?_of_head {cs : List Char} (h : cs.head? ≠ some '\'') :
    quotedName? cs = none := by
  cases cs with
  | nil => rfl
  | cons c cs =>
    rw [quotedName?]
    rintro rest ⟨⟩
    exact h rfl

/-- Between quotes everything is a name, white space and further quotes included. -/
theorem readToken_of_quoted (name : List Char) :
    readToken ('\'' :: (name ++ ['\''])) = .ok (.named (String.ofList name)) := by
  have htrim : trimBoth ('\'' :: (name ++ ['\''])) = '\'' :: (name ++ ['\'']) := by
    refine trimBoth_of_ends ?_ ?_
    · rintro c ⟨⟩
      decide
    · rw [← List.cons_append, List.getLast?_concat]
      rintro c ⟨⟩
      decide
  rw [readToken, htrim, quotedName?, stripEnd?_concat]

/-- A token that starts with no quote and has no white space around it is read as it stands. -/
theorem readToken_of_unquoted {cs : List Char} (hhead : cs.head? ≠ some '\'')
    (htrim : trimBoth cs = cs) : readToken cs = readBare cs := by
  rw [readToken, htrim, quotedName?_of_head hhead]

/-! ### Places -/

theorem isBlank_of_mem_ofInt {i : Int} {c : Char} (h : c ∈ Decimal.ofInt i) :
    isBlank c = false := by
  rcases Decimal.isDigit_or_minus h with h | rfl
  · exact isBlank_of_isDigit h
  · decide

theorem comma_not_mem_ofInt (i : Int) : ',' ∉ Decimal.ofInt i := by
  intro h
  rcases Decimal.isDigit_or_minus h with h | h <;> exact absurd h (by decide)

theorem fitsSigned_toInt64 (index : Int64) : Decimal.fitsSigned 64 index.toInt = true := by
  have hlo := index.le_toInt
  have hhi := index.toInt_lt
  simp only [Decimal.fitsSigned, Bool.and_eq_true, decide_eq_true_eq]
  exact ⟨hlo, hhi⟩

/-- The letter of a place and an integer. -/
theorem readBare_line (index : Int64) :
    readBare ('q' :: Decimal.ofInt index.toInt) = .ok (.line index) := by
  have hcomma : ('q' :: Decimal.ofInt index.toInt).contains ',' = false := by
    simp [comma_not_mem_ofInt]
  have hread := Decimal.readSigned?_ofInt (fitsSigned_toInt64 index)
  rcases hdigits : Decimal.ofInt index.toInt with _ | ⟨c, cs⟩
  · exact absurd hdigits (Decimal.ofInt_ne_nil _)
  · rw [hdigits] at hcomma hread
    have hc : c.isDigit = true ∨ c = '-' :=
      Decimal.isDigit_or_minus (hdigits ▸ List.mem_cons_self)
    have hcell : cellBody? ('q' :: c :: cs) = none := by
      rw [cellBody?]
      rintro rest ⟨⟩
      exact absurd hc (by decide)
    have hline : linePart? ('q' :: c :: cs) = some (c :: cs) := by
      rcases hc with h | rfl
      · simp [linePart?, h]
      · rfl
    rw [readBare, hcell, hcomma, hline]
    simp [hread]

theorem parse_render_line (index : Int64) : parse (line index).render = .ok (.line index) := by
  rw [parse, render, String.toList_ofList, renderChars, readToken_of_unquoted (by simp),
    readBare_line]
  refine trimBoth_of_forall fun c hc => ?_
  rcases List.mem_cons.1 hc with rfl | hc
  · decide
  · exact isBlank_of_mem_ofInt hc

/-! ### Cells -/

theorem fitsSigned_toInt32 (i : Int32) : Decimal.fitsSigned 32 i.toInt = true := by
  have hlo := i.le_toInt
  have hhi := i.toInt_lt
  simp only [Decimal.fitsSigned, Bool.and_eq_true, decide_eq_true_eq]
  exact ⟨hlo, hhi⟩

theorem readCoordinate?_ofInt (i : Int32) : readCoordinate? (Decimal.ofInt i.toInt) = some i := by
  rw [readCoordinate?, trimBoth_of_forall fun c => isBlank_of_mem_ofInt,
    Decimal.readSigned?_ofInt (fitsSigned_toInt32 i)]
  simp

/-- Two integers with a comma and a blank between them. -/
theorem readCell_ofInt (row col : Int32) :
    readCell (Decimal.ofInt row.toInt ++ ',' :: ' ' :: Decimal.ofInt col.toInt)
      = .ok (.grid row col) := by
  have hcol : ',' ∉ ' ' :: Decimal.ofInt col.toInt := by simp [comma_not_mem_ofInt]
  have hblank : readCoordinate? (' ' :: Decimal.ofInt col.toInt) = some col := by
    rw [readCoordinate?, trimBoth_cons_of_isBlank (by decide), ← readCoordinate?,
      readCoordinate?_ofInt]
  rw [readCell, pieces_append_mark (comma_not_mem_ofInt _), pieces_of_not_mem hcol]
  simp [readCoordinate?_ofInt, hblank]

theorem parse_render_grid (row col : Int32) :
    parse (grid row col).render = .ok (.grid row col) := by
  have hchars : (grid row col).renderChars =
      'q' :: '(' :: (Decimal.ofInt row.toInt ++ ',' :: ' ' :: Decimal.ofInt col.toInt)
        ++ [')'] := by
    simp [renderChars]
  have htrim : trimBoth (grid row col).renderChars = (grid row col).renderChars := by
    rw [hchars]
    refine trimBoth_of_ends ?_ ?_
    · rintro c ⟨⟩
      decide
    · rw [List.getLast?_concat]
      rintro c ⟨⟩
      decide
  rw [parse, render, String.toList_ofList, readToken_of_unquoted (by simp [hchars]) htrim, hchars,
    readBare, List.cons_append, List.cons_append, cellBody?, stripEnd?_concat]
  exact readCell_ofInt row col

/-! ### Names -/

/-- A name that need not be quoted is read back as itself; that is when it need not be. -/
theorem readToken_of_not_needsQuotes {name : List Char} (h : needsQuotes name = false) :
    readToken name = .ok (.named (String.ofList name)) := by
  simp only [needsQuotes, Bool.or_eq_false_iff, bne_eq_false_iff_eq, beq_eq_false_iff_ne] at h
  obtain ⟨⟨hhead, htrim⟩, hread⟩ := h
  rw [readToken_of_unquoted hhead htrim]
  split at hread
  · rename_i r hr
    rw [hr, bne_eq_false_iff_eq.1 hread]
  · cases hread

theorem parse_render_named (name : String) : parse (named name).render = .ok (.named name) := by
  rw [parse, render, String.toList_ofList, renderChars]
  cases hquotes : needsQuotes name.toList with
  | true => simp [readToken_of_quoted]
  | false => simp [readToken_of_not_needsQuotes hquotes]

/-! ### Every resource -/

theorem parse_render (r : Resource) : parse r.render = .ok r := by
  cases r with
  | line index => exact parse_render_line index
  | grid row col => exact parse_render_grid row col
  | named name => exact parse_render_named name

/-- Different resources have different written forms. -/
theorem render_injective : Function.Injective render := by
  intro a b h
  have hread : Except.ok (ε := TextError) a = .ok b := by
    rw [← parse_render a, h, parse_render]
  exact Except.ok.inj hread

end Resource

/-- The members of a frontier in JSON are its entries, each under the written form of its
resource. -/
theorem Report.frontierJson_members (frontier : Frontier) :
    ∃ members, frontierJson frontier = .object members ∧
      members.Perm (frontier.entries.map fun e => (e.1.render, Json.ofNat e.2)) ∧
      (members.map Prod.fst).Nodup := by
  have hkeys :
      ((frontier.entries.map fun e => (e.1.render, Json.ofNat e.2)).map Prod.fst).Nodup := by
    have hnd : (frontier.keys.map Resource.render).Nodup :=
      (frontier.increasing_keys.nodup).map Resource.render_injective
    simpa [SortedMap.keys, List.map_map, Function.comp_def] using hnd
  have hperm := Ordered.perm_foldl_place (l := []) hkeys
  exact ⟨_, rfl, hperm, ((hperm.map Prod.fst).nodup_iff).2 hkeys⟩

/-- **Written resources are read back.** Reading takes the written form of every resource back to
the resource, so that no two resources have the same form, and a frontier in JSON keeps one member
for each of its resources. -/
theorem Resource.render_readable :
    (∀ r : Resource, parse r.render = .ok r) ∧ Function.Injective render ∧
      ∀ frontier : Frontier, ∃ members, Report.frontierJson frontier = .object members ∧
        members.Perm (frontier.entries.map fun e => (e.1.render, Json.ofNat e.2)) ∧
        (members.map Prod.fst).Nodup :=
  ⟨parse_render, render_injective, Report.frontierJson_members⟩

/-- Names that look like something else are quoted. -/
example : (["q5", "a,b", "q(1, 2)", "'quoted'", " padded ", "'", "", "anc"].map fun name =>
    (Resource.named name).render) =
      ["'q5'", "'a,b'", "'q(1, 2)'", "''quoted''", "' padded '", "'''", "''", "anc"] := by
  decide +kernel

end Timetable
