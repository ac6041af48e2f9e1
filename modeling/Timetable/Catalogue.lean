import Timetable.Nesting
import Timetable.Slot

/-!
# Catalogues

A catalogue lists operations under names. The body of an entry refers to entries by name, so that
an entry can stand in several bodies, and a body can contain itself, directly or through others. A
body is known by the name of its entry.

* `Catalogue`, `Catalogue.Entry`: the list of operations.
* `Catalogue.Node`: the operations of a catalogue, equal when their names are.
* `Catalogue.nesting`: which of them stand in the bodies of others.
-/

namespace Timetable

/-- An operation of a catalogue: its resources, and the names in the slots of its body. -/
structure Catalogue.Entry where
  resources : List Resource
  body? : Option (List (List String))

/-- Operations under names. -/
structure Catalogue where
  entries : List (String × Catalogue.Entry)

namespace Catalogue

def find? (c : Catalogue) (name : String) : Option Entry := c.entries.lookup name

def names (c : Catalogue) : List String := c.entries.map Prod.fst

/-- The names in the body of an entry, in order. Without a body there are none. -/
def inside? (c : Catalogue) (name : String) : Option (List String) :=
  (c.find? name).bind fun entry => entry.body?.map List.flatten

theorem mem_names_of_inside? {c : Catalogue} {name : String} {ns : List String}
    (h : c.inside? name = some ns) : name ∈ c.names := by
  obtain ⟨entry, he, -⟩ := Option.bind_eq_some_iff.1 h
  obtain ⟨l, r, hl, -⟩ := List.lookup_eq_some_iff.1 he
  simp [names, hl]

/-! ### The operations of a catalogue -/

/-- An operation of the catalogue. -/
structure Node (c : Catalogue) where
  name : String
  deriving DecidableEq

/-- The bodies of the catalogue, each under the name of its entry. -/
def nesting (c : Catalogue) : Nesting (Node c) String where
  held? n := (c.inside? n.name).map fun _ => n.name
  inside name := ((c.inside? name).getD []).map Node.mk
  bodies := c.names
  held?_mem h := by
    obtain ⟨names, hinside, rfl⟩ := Option.map_eq_some_iff.1 h
    exact mem_names_of_inside? hinside

namespace Node

variable {c : Catalogue}

/-- The resources of the entry. A name outside the catalogue has none. -/
def resources (n : Node c) : List Resource := ((c.find? n.name).map Entry.resources).getD []

/-- The slot of the names, without a check for shared resources. -/
def slotOf (names : List String) : Slot (Node c) :=
  let ops := names.map Node.mk
  ⟨ops, Slot.indexBy resources ops⟩

instance : Operation (Node c) where
  resources := resources
  footprint _ := {}
  body? n := (c.find? n.name).bind fun entry => entry.body?.map fun body => body.map slotOf
  nestsInItself := c.nesting.nestsInItself

end Node

/-- Refuses a catalogue in which operations share a resource in a slot of a body. -/
def check (c : Catalogue) : Except Fault Unit :=
  c.entries.forM fun e =>
    (e.2.body?.getD []).forM fun names => do
      let _ ← Slot.ofOperations (names.map (Node.mk (c := c)))

end Catalogue

end Timetable
