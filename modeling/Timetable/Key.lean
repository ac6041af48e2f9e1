import Timetable.Ordered.Set
import Timetable.Text.Blank

/-!
# Keys

A key names a channel of classical data, such as the outcome of a measurement. An operation that
writes a key has to stay ordered against every operation that reads it.

* `Key`: a name that is not blank.
* `Key.ofName`: the key of a name, taken as it stands.
* `Key.parse`: the key of a text, white space around it dropped.
-/

namespace Timetable

/-- A name of a channel of classical data. -/
structure Key where
  name : String
  notBlank : Text.isBlankText name = false
  deriving DecidableEq

namespace Key

/-- Why a text is no key. -/
inductive NameError where
  /-- There is nothing but white space. -/
  | empty
  deriving DecidableEq

def NameError.message : NameError → String
  | .empty => "empty classical key"

/-- Keys are ordered by the code points of their names. -/
def order : Key → Key → Ordering := compareOn name

instance : Ord Key := ⟨order⟩

instance : Std.TransCmp order := by
  unfold order
  infer_instance

instance : Std.TransOrd Key := inferInstanceAs (Std.TransCmp order)

instance : Std.LawfulEqOrd Key where
  compare_self := @Std.ReflCmp.compare_self _ order _
  eq_of_compare {a b} h := by
    cases a; cases b
    change order _ _ = .eq at h
    simpa [order, compareOn, Std.LawfulEqCmp.compare_eq_iff_eq] using h

/-- The key of a name. The name is kept with the white space around it. -/
def ofName (name : String) : Except NameError Key :=
  if h : Text.isBlankText name = false then .ok ⟨name, h⟩ else .error .empty

/-- The key of a text without the white space around it. -/
def parse (text : String) : Except NameError Key := ofName (Text.trim text)

/-- The key with its type, for diagnostics. -/
def describe (k : Key) : String := "ClassicalKey(" ++ k.name ++ ")"

end Key

/-- A set of keys. -/
abbrev KeySet := SortedSet Key

end Timetable
