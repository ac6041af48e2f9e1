import Timetable.Catalogue
import Mathlib.Data.List.Perm.Subperm

/-!
# The search for a cycle is exact

The search remembers the schedules that it is in, and no others. This is enough: a schedule that
contains itself is found on the way from one of its operations back to itself, whereas a schedule
that is come to a second time, but from the side, is gone through again.

* `Nesting.Below`, `Nesting.ContainsItself`: what stands below an operation, and what closes a
  cycle.
* `Nesting.closesCycle_iff`, `Nesting.nestsInItself_iff`: what the search answers.
* `Nesting.Visits`, `Nesting.Visits.length_le`: how deep it goes.
* `Nesting.Describes`, `Catalogue.describes_nesting`: operations that are searched in this way.
-/

namespace Timetable

namespace Nesting

variable {ω β : Type}

/-- The schedule stands below the operation: it is the one that the operation holds, or it stands
below an operation of that one. -/
inductive Below (n : Nesting ω β) : ω → β → Prop
  | held {op : ω} {b : β} : n.held? op = some b → Below n op b
  | deeper {op inner : ω} {b b' : β} : n.held? op = some b → inner ∈ n.inside b →
      Below n inner b' → Below n op b'

/-- The schedule stands below one of its own operations. -/
def ContainsItself (n : Nesting ω β) (b : β) : Prop := ∃ inner ∈ n.inside b, n.Below inner b

variable {n : Nesting ω β}

theorem not_below_of_held?_eq_none {op : ω} (h : n.held? op = none) (b : β) : ¬n.Below op b := by
  intro hbelow
  cases hbelow with
  | held hb =>
    rw [h] at hb
    cases hb
  | deeper hb _ _ =>
    rw [h] at hb
    cases hb

theorem below_iff_of_held? {op : ω} {b b' : β} (h : n.held? op = some b) :
    n.Below op b' ↔ b' = b ∨ ∃ inner ∈ n.inside b, n.Below inner b' := by
  constructor
  · intro hbelow
    cases hbelow with
    | held hb =>
      rw [h] at hb
      cases hb
      exact .inl rfl
    | deeper hb hinner hdeeper =>
      rw [h] at hb
      cases hb
      exact .inr ⟨_, hinner, hdeeper⟩
  · rintro (rfl | ⟨inner, hinner, hdeeper⟩)
    · exact .held h
    · exact .deeper h hinner hdeeper

variable [DecidableEq β]

theorem closesCycle_of_held?_eq_none {op : ω} (h : n.held? op = none) (met : List β) :
    n.closesCycle met op = false := by
  rw [closesCycle]
  split
  · rfl
  · rename_i hb
    rw [h] at hb
    cases hb

theorem closesCycle_of_held? {op : ω} {b : β} (h : n.held? op = some b) (met : List β) :
    n.closesCycle met op = true ↔
      b ∈ met ∨ ∃ inner ∈ n.inside b, n.closesCycle (b :: met) inner = true := by
  rw [closesCycle]
  split
  · rename_i hb
    rw [h] at hb
    cases hb
  · rename_i b' hb
    rw [h] at hb
    cases hb
    split
    · rename_i hmet
      exact iff_of_true rfl (.inl hmet)
    · rename_i hmet
      rw [or_iff_right hmet, List.any_eq_true]

/-- Inside the schedules `met`, the search says whether there is one of them below the operation, or
one that contains itself. -/
theorem closesCycle_iff (n : Nesting ω β) (met : List β) (op : ω) :
    n.closesCycle met op = true ↔ ∃ b, n.Below op b ∧ (b ∈ met ∨ n.ContainsItself b) := by
  induction met, op using closesCycle.induct n with
  | case1 met op hnone =>
    rw [closesCycle_of_held?_eq_none hnone]
    refine iff_of_false Bool.false_ne_true fun hfound => ?_
    obtain ⟨b, hbelow, -⟩ := hfound
    exact not_below_of_held?_eq_none hnone b hbelow
  | case2 met op b hb hmet =>
    exact iff_of_true ((closesCycle_of_held? hb met).2 (.inl hmet)) ⟨b, .held hb, .inl hmet⟩
  | case3 met op b hb hmet ih =>
    rw [closesCycle_of_held? hb, or_iff_right hmet]
    constructor
    · rintro ⟨inner, hinner, hcloses⟩
      obtain ⟨b', hbelow, hmet' | hself⟩ := (ih inner).1 hcloses
      · rcases List.mem_cons.1 hmet' with rfl | hmet'
        · exact ⟨b', .held hb, .inr ⟨inner, hinner, hbelow⟩⟩
        · exact ⟨b', .deeper hb hinner hbelow, .inl hmet'⟩
      · exact ⟨b', .deeper hb hinner hbelow, .inr hself⟩
    · rintro ⟨b', hbelow, hfound⟩
      rcases (below_iff_of_held? hb).1 hbelow with rfl | ⟨inner, hinner, hdeeper⟩
      · obtain ⟨inner, hinner, hself⟩ := hfound.resolve_left hmet
        exact ⟨inner, hinner, (ih inner).2 ⟨b', hself, .inl List.mem_cons_self⟩⟩
      · refine ⟨inner, hinner, (ih inner).2 ⟨b', hdeeper, ?_⟩⟩
        exact hfound.imp (List.mem_cons_of_mem b) id

/-- The search is exact. It finds a cycle just where a schedule below the operation contains
itself. -/
theorem nestsInItself_iff (n : Nesting ω β) (op : ω) :
    n.nestsInItself op = true ↔ ∃ b, n.Below op b ∧ n.ContainsItself b := by
  rw [nestsInItself, closesCycle_iff]
  refine exists_congr fun b => and_congr_right fun _ => or_iff_right List.not_mem_nil

/-! ### How deep the search goes -/

/-- The search that starts at the operation `op` comes to another one inside the schedules `met`. -/
inductive Visits (n : Nesting ω β) (op : ω) : List β → ω → Prop
  | start : Visits n op [] op
  | down {met : List β} {outer inner : ω} {b : β} : Visits n op met outer →
      n.held? outer = some b → b ∉ met → inner ∈ n.inside b → Visits n op (b :: met) inner

/-- Where it finds a cycle there, it finds one altogether. -/
theorem Visits.nestsInItself {op inner : ω} {met : List β} (h : n.Visits op met inner)
    (hcloses : n.closesCycle met inner = true) : n.nestsInItself op = true := by
  induction h with
  | start => exact hcloses
  | down _ hb _ hinner ih => exact ih ((closesCycle_of_held? hb _).2 (.inr ⟨_, hinner, hcloses⟩))

omit [DecidableEq β] in
/-- The search is never inside one schedule twice, so it is never deeper than there are
schedules. -/
theorem Visits.length_le {op inner : ω} {met : List β} (h : n.Visits op met inner) :
    met.length ≤ n.bodies.length := by
  have hmet : met.Nodup ∧ met ⊆ n.bodies := by
    induction h with
    | start => exact ⟨List.nodup_nil, List.nil_subset _⟩
    | down _ hb hnew _ ih =>
      exact ⟨List.nodup_cons.2 ⟨hnew, ih.1⟩, List.cons_subset.2 ⟨n.held?_mem hb, ih.2⟩⟩
  exact (hmet.1.subperm hmet.2).length_le

/-! ### Operations that are searched in this way -/

variable [Operation ω]

/-- The operations hold the schedules that the nesting says, and they are searched for cycles by
going down in it. -/
structure Describes (n : Nesting ω β) : Prop where
  inside_eq : ∀ op : ω, (body? op).map (List.flatMap Slot.operations) = (n.held? op).map n.inside
  search_eq : ∀ op : ω, Operation.nestsInItself op = n.nestsInItself op

end Nesting

/-- The operations of a catalogue are searched by way of its bodies. -/
theorem Catalogue.describes_nesting (c : Catalogue) : c.nesting.Describes where
  search_eq _ := rfl
  inside_eq n := by
    have hbody : (body? n).map (List.flatMap Slot.operations) =
        (c.inside? n.name).map (List.map Node.mk) := by
      show Option.map _ ((c.find? n.name).bind _) = Option.map _ ((c.find? n.name).bind _)
      cases c.find? n.name with
      | none => rfl
      | some entry =>
        rw [Option.bind_some, Option.bind_some, Option.map_map, Option.map_map]
        refine congrArg (Option.map · entry.body?) (funext fun body => ?_)
        rw [Function.comp_apply, Function.comp_apply, List.flatMap_map, List.map_flatten]
        rfl
    rw [hbody, nesting]
    dsimp only
    cases hinside : c.inside? n.name with
    | none => rfl
    | some names =>
      rw [Option.map_some, Option.map_some, Option.map_some, hinside, Option.getD_some]

end Timetable
