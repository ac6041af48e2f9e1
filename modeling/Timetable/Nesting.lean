/-!
# Operations that hold schedules

An operation may hold a schedule, and several operations may hold the same one. Held schedules are
told apart by what identifies them, not by what is in them: so a schedule can hold itself, by way of
its own operations. Whether this is so anywhere below an operation is found by going down from
schedule to operation to schedule; a schedule that is met inside itself closes a cycle. On the way
down no schedule is met twice without closing a cycle, so the search ends.

* `Nesting`: which operation holds which schedule, and which operations are in it.
* `Nesting.closesCycle`, `Nesting.nestsInItself`: the search for a cycle below an operation.
-/

namespace Timetable

/-- Schedules that operations hold, each known by its identity. -/
structure Nesting (ω β : Type) where
  /-- The schedule that the operation holds. -/
  held? : ω → Option β
  /-- The operations of a schedule, in order. -/
  inside : β → List ω
  /-- The schedules that are held. -/
  bodies : List β
  held?_mem : ∀ {op b}, held? op = some b → b ∈ bodies

namespace Nesting

variable {ω β : Type} [DecidableEq β]

/-- The schedules that are not among those given. -/
def unmet (n : Nesting ω β) (met : List β) : List β := n.bodies.filter fun b => !met.contains b

/-- Meeting a schedule leaves fewer schedules unmet. -/
theorem length_unmet_lt {n : Nesting ω β} {met : List β} {b : β} (hmem : b ∈ n.bodies)
    (hnew : b ∉ met) : (n.unmet (b :: met)).length < (n.unmet met).length := by
  have hsub : n.unmet (b :: met) = (n.unmet met).filter fun x => !(x == b) := by
    rw [unmet, unmet, List.filter_filter]
    congr 1
    funext x
    by_cases hx : x = b <;> simp [hx]
  rw [hsub]
  refine List.length_filter_lt_length_iff_exists.2 ⟨b, ?_, by simp⟩
  exact List.mem_filter.2 ⟨hmem, by simpa using hnew⟩

/-- Whether going down from the operation meets a schedule inside itself. `met` lists the schedules
that the search is in. -/
def closesCycle (n : Nesting ω β) (met : List β) (op : ω) : Bool :=
  match _hb : n.held? op with
  | none => false
  | some b =>
    if _h : b ∈ met then true
    else (n.inside b).any fun inner => n.closesCycle (b :: met) inner
termination_by (n.unmet met).length
decreasing_by exact length_unmet_lt (n.held?_mem _hb) _h

/-- Whether a schedule below the operation, at any depth, contains itself. -/
def nestsInItself (n : Nesting ω β) (op : ω) : Bool := n.closesCycle [] op

end Nesting

end Timetable
