/-!
# Resources

A resource is something that at most one operation can use at a time: a place on a line, a cell
of a grid, or anything that has a name. Resources are ordered, places on a line first, then cells
by row and column, then names by their code points, so that every set of resources has one listing.

* `Resource`: the three kinds.
* `Resource.order`: the order, lexicographic in kind and fields, and the instances which say that
  it is a total order in which only equal resources compare as equal.
* `Resource.lineRange`: the first places of a line.
-/

namespace Timetable

/-- Something that at most one operation can use at a time. -/
inductive Resource where
  /-- A place on a line. -/
  | line (index : Int64)
  /-- A cell of a grid. -/
  | grid (row col : Int32)
  /-- Anything known by its name alone. -/
  | named (name : String)
  deriving DecidableEq

namespace Resource

/-- The rank of the kind: places of a line, then cells, then names. -/
def rank : Resource → Nat
  | .line _ => 0
  | .grid _ _ => 1
  | .named _ => 2

/-- The index of a place, zero for the other kinds. -/
def lineIndex : Resource → Int64
  | .line index => index
  | _ => 0

/-- Row and column of a cell, zero for the other kinds. -/
def cell : Resource → Int32 × Int32
  | .grid row col => (row, col)
  | _ => (0, 0)

def label : Resource → String
  | .named name => name
  | _ => ""

/-- The kind decides first, then the fields from left to right. -/
def order : Resource → Resource → Ordering :=
  compareLex (compareOn rank) <| compareLex (compareOn lineIndex) <|
    compareLex (compareLex (compareOn fun r => r.cell.1) (compareOn fun r => r.cell.2))
      (compareOn label)

instance : Ord Resource := ⟨order⟩

instance : Std.TransCmp order := by
  unfold order
  infer_instance

instance : Std.TransOrd Resource := inferInstanceAs (Std.TransCmp order)

/-- Kind and fields together determine a resource. -/
theorem eq_of_fields : ∀ {a b : Resource}, a.rank = b.rank → a.lineIndex = b.lineIndex →
    a.cell = b.cell → a.label = b.label → a = b
  | .line _, .line _, _, rfl, _, _ => rfl
  | .grid _ _, .grid _ _, _, _, h, _ => by
    obtain ⟨rfl, rfl⟩ := Prod.mk.inj h
    rfl
  | .named _, .named _, _, _, _, rfl => rfl

instance : Std.LawfulEqOrd Resource where
  compare_self := @Std.ReflCmp.compare_self _ order _
  eq_of_compare {a b} h := by
    change order a b = .eq at h
    simp only [order, compareLex_eq_eq, compareOn, Std.LawfulEqCmp.compare_eq_iff_eq] at h
    obtain ⟨hrank, hindex, ⟨hrow, hcol⟩, hlabel⟩ := h
    exact eq_of_fields hrank hindex (Prod.ext hrow hcol) hlabel

def isLine : Resource → Bool
  | .line _ => true
  | _ => false

/-- The places `0`, `1`, … of a line up to but without `n`; none where `n` is negative. -/
def lineRange (n : Int64) : List Resource :=
  (List.range n.toInt.toNat).map fun i => .line (Int64.ofNat i)

end Resource

end Timetable
