import Timetable.Frontier.Text
import Timetable.Proofs.Resource.RoundTrip

/-!
# Frontiers read back

A frontier is shown as a row of entries `resource=index`. The reader of an entry cuts it at its first
equals sign. The digits of an index hold no equals sign, and neither do places and cells, so all
depends on the names: the entry of a name with an equals sign is cut inside the name, between quotes
or not, and what then stands for the index is no number. Every other entry is read back.

* `Resource.HasEqualsSign`: what keeps an entry from being read back.
* `Frontier.entryText`: a written entry.
* `Frontier.parseEntry_entryText`, `Frontier.parseEntry_entryText_of_mark`: the two cases.
* `Frontier.parse_entryTexts`: which frontiers are read back, and how the others fail.
* `Frontier.parse_entryTexts_cut_short`: a name with an equals sign.
-/

namespace Timetable

open Text

/-! ### Equals signs in resources -/

namespace Resource

def HasEqualsSign (r : Resource) : Prop := '=' ∈ r.label.toList

instance : DecidablePred HasEqualsSign := fun r => inferInstanceAs (Decidable ('=' ∈ r.label.toList))

theorem equalsSign_not_mem_ofInt (i : Int) : '=' ∉ Decimal.ofInt i := by
  intro h
  rcases Decimal.isDigit_or_minus h with h | h <;> exact absurd h (by decide)

/-- Only a name can hold an equals sign, and quotes add none to it. -/
theorem equalsSign_mem_renderChars_iff (r : Resource) :
    '=' ∈ r.renderChars ↔ r.HasEqualsSign := by
  rw [HasEqualsSign]
  cases r with
  | line index => simp [renderChars, label, equalsSign_not_mem_ofInt]
  | grid row col => simp [renderChars, label, equalsSign_not_mem_ofInt]
  | named name =>
    rw [renderChars, label]
    split <;> simp

end Resource

namespace Frontier

open Decimal (natText)

/-! ### Entries -/

def entryText (e : Resource × Nat) : String := e.1.render ++ "=" ++ natText e.2

theorem toList_entryText (e : Resource × Nat) :
    (entryText e).toList = e.1.renderChars ++ '=' :: Decimal.ofNat e.2 := by
  simp [entryText, Resource.render, natText]

/-- The row of a frontier is the row of its written entries. -/
theorem frontierText_eq_join (frontier : Frontier) :
    Report.frontierText frontier = join ", " (frontier.entries.map entryText) := rfl

/-- An entry whose resource holds no equals sign is read back. -/
theorem parseEntry_entryText {e : Resource × Nat} (hmark : ¬e.1.HasEqualsSign)
    (hindex : e.2 < Nat.pow 2 64) : parseEntry (entryText e) = .ok e := by
  have hread : Resource.readToken e.1.renderChars = .ok e.1 := by
    have hparse := Resource.parse_render e.1
    rwa [Resource.parse, Resource.render, String.toList_ofList] at hparse
  have htrim : trimBoth (Decimal.ofNat e.2) = Decimal.ofNat e.2 :=
    trimBoth_of_forall fun c hc => isBlank_of_isDigit (Decimal.isDigit_of_mem_ofNat hc)
  rw [parseEntry, toList_entryText,
    splitAtFirst_append_mark (mt (Resource.equalsSign_mem_renderChars_iff e.1).1 hmark)]
  dsimp only
  rw [htrim, Decimal.readUnsigned?_ofNat hindex]
  dsimp only
  rw [hread]

/-- An entry whose resource holds an equals sign is cut inside the resource, and the rest of the
resource, the second equals sign and the digits are no index. -/
theorem parseEntry_entryText_of_mark {e : Resource × Nat} (hmark : e.1.HasEqualsSign) :
    parseEntry (entryText e) = .error (.badIndex (entryText e)) := by
  obtain ⟨before, after, hchars, hbefore⟩ :=
    List.eq_append_cons_of_mem ((Resource.equalsSign_mem_renderChars_iff e.1).2 hmark)
  have hsplit : splitAtFirst '=' (entryText e).toList
      = some (before, after ++ '=' :: Decimal.ofNat e.2) := by
    rw [toList_entryText, hchars, List.append_assoc, List.cons_append,
      splitAtFirst_append_mark hbefore]
  have hmem : '=' ∈ trimBoth (after ++ '=' :: Decimal.ofNat e.2) :=
    mem_trimBoth (by simp) (by decide)
  have hindex : Decimal.readUnsigned? 64 (trimBoth (after ++ '=' :: Decimal.ofNat e.2)) = none := by
    rw [Decimal.readUnsigned?, Decimal.readNat?_of_mem hmem (by decide) (by decide)]
    rfl
  rw [parseEntry, hsplit]
  dsimp only
  rw [hindex]

/-- Entries that are read back one by one are read back together. -/
theorem mapM_parseEntry_entryText {entries : List (Resource × Nat)}
    (hmark : ∀ e ∈ entries, ¬e.1.HasEqualsSign) (hindex : ∀ e ∈ entries, e.2 < Nat.pow 2 64) :
    (entries.map entryText).mapM parseEntry = .ok entries := by
  induction entries with
  | nil => rfl
  | cons e entries ih =>
    obtain ⟨he, hmark⟩ := List.forall_mem_cons.1 hmark
    obtain ⟨hlt, hindex⟩ := List.forall_mem_cons.1 hindex
    rw [List.map_cons, List.mapM_cons, parseEntry_entryText he hlt, ih hmark hindex]
    rfl

/-- The first entry that is not read back is reported. -/
theorem mapM_parseEntry_of_mark {earlier later : List (Resource × Nat)} {e : Resource × Nat}
    (hmark : ∀ d ∈ earlier, ¬d.1.HasEqualsSign) (hindex : ∀ d ∈ earlier, d.2 < Nat.pow 2 64)
    (he : e.1.HasEqualsSign) :
    ((earlier ++ e :: later).map entryText).mapM parseEntry = .error (.badIndex (entryText e)) := by
  rw [List.map_append, List.mapM_append, mapM_parseEntry_entryText hmark hindex, List.map_cons,
    List.mapM_cons, parseEntry_entryText_of_mark he]
  rfl

/-! ### Frontiers -/

/-- **What is read back.** The entries that the row of a frontier consists of, with indices of 64
bits, are read back as the frontier exactly when no resource has an equals sign in its name. Otherwise
the first entry with such a name is reported for its index. -/
theorem parse_entryTexts {frontier : Frontier} (hindex : ∀ e ∈ frontier.entries, e.2 < Nat.pow 2 64) :
    Report.frontierText frontier = join ", " (frontier.entries.map entryText) ∧
      (parse (frontier.entries.map entryText) = .ok frontier ↔
        ∀ e ∈ frontier.entries, ¬e.1.HasEqualsSign) ∧
      ∀ earlier e later, frontier.entries = earlier ++ e :: later →
        (∀ d ∈ earlier, ¬d.1.HasEqualsSign) → e.1.HasEqualsSign →
        parse (frontier.entries.map entryText) = .error (.badIndex (entryText e)) := by
  have hfails : ∀ earlier e later, frontier.entries = earlier ++ e :: later →
      (∀ d ∈ earlier, ¬d.1.HasEqualsSign) → e.1.HasEqualsSign →
      parse (frontier.entries.map entryText) = .error (.badIndex (entryText e)) := by
    intro earlier e later hsplit hmark he
    rw [hsplit] at hindex ⊢
    rw [parse, mapM_parseEntry_of_mark hmark (fun d hd => hindex d (List.mem_append_left _ hd)) he]
    rfl
  refine ⟨frontierText_eq_join frontier, ⟨fun hread => ?_, fun hmark => ?_⟩, hfails⟩
  · by_contra hnot
    obtain ⟨e, hfirst⟩ : ∃ e, frontier.entries.find? (fun e => e.1.HasEqualsSign) = some e := by
      rw [← Option.isSome_iff_exists, List.find?_isSome]
      simpa using hnot
    obtain ⟨he, earlier, later, hsplit, hmark⟩ := List.find?_eq_some_iff_append.1 hfirst
    rw [hfails earlier e later hsplit (by simpa using hmark) (by simpa using he)] at hread
    cases hread
  · rw [parse, mapM_parseEntry_entryText hmark hindex]
    exact congrArg Except.ok (SortedMap.ofList_entries frontier)

/-- Two places, a cell and a name that has to be quoted, in the order of resources. -/
theorem parse_entryTexts_quoted :
    let frontier : Frontier := .ofList
      [(.named "q7", 2), (.grid 1 (-2), 0), (.line 3, 18446744073709551615), (.line 0, 5)]
    (∀ e ∈ frontier.entries, e.2 < Nat.pow 2 64) ∧
      Report.frontierText frontier = join ", " (frontier.entries.map entryText) ∧
      (parse (frontier.entries.map entryText) = .ok frontier ↔
        ∀ e ∈ frontier.entries, ¬e.1.HasEqualsSign) ∧
      ∀ earlier e later, frontier.entries = earlier ++ e :: later →
        (∀ d ∈ earlier, ¬d.1.HasEqualsSign) → e.1.HasEqualsSign →
        parse (frontier.entries.map entryText) = .error (.badIndex (entryText e)) := by
  intro frontier
  have hindex : ∀ e ∈ frontier.entries, e.2 < Nat.pow 2 64 := by decide +kernel
  exact ⟨hindex, parse_entryTexts hindex⟩

/-- The entry `a=b=3` of the name `a=b` is refused: `b=3` is no index. -/
theorem parse_entryTexts_cut_short :
    let frontier : Frontier := .ofList [(.named "a=b", 3)]
    (∀ e ∈ frontier.entries, e.2 < Nat.pow 2 64) ∧
      frontier.entries.map entryText = ["a=b=3"] ∧
      parse (frontier.entries.map entryText) = .error (.badIndex "a=b=3") ∧
      parse (frontier.entries.map entryText) ≠ .ok frontier := by
  intro frontier
  have hread : parse (frontier.entries.map entryText) = .error (.badIndex "a=b=3") := by
    decide +kernel
  refine ⟨by decide +kernel, by decide +kernel, hread, fun hok => ?_⟩
  rw [hread] at hok
  cases hok

end Frontier

end Timetable
