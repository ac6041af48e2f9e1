import Timetable.Proofs.Partition.Classes
import Timetable.Instruction

/-!
# The classes in order

Resources are put to their classes in increasing order, and a new class is opened at the end. So the
resource that opens a class is the least one in it, and it is greater than those that have opened the
classes before. That the classes are the right ones does not matter here: the order holds whatever
the forest answers.

* `SortedSet.least?`: the least member of a set.
* `LeastFirst`: classes, each with a member below everything in the classes behind it.
* `LeastFirst.putTo`, `LeastFirst.classify`: one resource more, and all of them.
* `ResourceClasses`: all there is to say about the independent resource sets.
* `independentResources_classes`: they are the classes of linked resources, in order.
-/

namespace Timetable

variable {ω : Type} [Operation ω]

namespace SortedSet

variable {α : Type} [Ord α]

def least? (s : SortedSet α) : Option α := s.toList.head?

theorem least?_eq_some_iff [Std.TransOrd α] [Std.LawfulEqOrd α] {s : SortedSet α} {a : α} :
    s.least? = some a ↔ a ∈ s ∧ ∀ b ∈ s, (compare a b).isLE = true := by
  have hhead : s.least? = s.toList.find? fun _ => true := by
    rw [least?]
    cases s.toList <;> rfl
  rw [hhead, Ordered.find?_eq_some_iff s.increasing]
  simp only [and_true, forall_true_left]
  rfl

theorem exists_least? [Std.TransOrd α] [Std.LawfulEqOrd α] {s : SortedSet α} (h : ∃ a, a ∈ s) :
    ∃ a, s.least? = some a := by
  obtain ⟨a, ha⟩ := h
  have hne : s.toList ≠ [] := List.ne_nil_of_mem ha
  exact ⟨_, List.head?_eq_some_head hne⟩

end SortedSet

/-! ### Filling the classes in order -/

/-- Every class has a member that is below everything in the classes behind it. -/
structure LeastFirst (classes : List (Nat × SortedSet Resource)) : Prop where
  nonempty : ∀ c ∈ classes, ∃ r, r ∈ c.2
  ordered : classes.Pairwise fun c d => ∃ r ∈ c.2, ∀ r' ∈ d.2, compare r r' = .lt

namespace LeastFirst

variable {classes : List (Nat × SortedSet Resource)} {r : Resource}

theorem nil : LeastFirst [] where
  nonempty _ hc := nomatch hc
  ordered := List.Pairwise.nil

/-- A class gets a member that is greater than all there are. -/
theorem insert (h : LeastFirst classes) (hbelow : ∀ c ∈ classes, ∀ a ∈ c.2, compare a r = .lt)
    (root : Nat) :
    LeastFirst (classes.map fun c => if c.1 == root then (c.1, c.2.insert r) else c) := by
  have hold : ∀ {c : Nat × SortedSet Resource} {a}, a ∈ c.2 →
      a ∈ (if c.1 == root then (c.1, c.2.insert r) else c).2 := by
    intro c a ha
    split
    · exact SortedSet.mem_insert.2 (.inr ha)
    · exact ha
  have hnew : ∀ {c : Nat × SortedSet Resource} {a},
      a ∈ (if c.1 == root then (c.1, c.2.insert r) else c).2 → a = r ∨ a ∈ c.2 := by
    intro c a ha
    split at ha
    · exact SortedSet.mem_insert.1 ha
    · exact .inr ha
  constructor
  · intro c hc
    obtain ⟨d, hd, rfl⟩ := List.mem_map.1 hc
    obtain ⟨a, ha⟩ := h.nonempty d hd
    exact ⟨a, hold ha⟩
  · refine List.pairwise_map.2 (h.ordered.imp_of_mem fun {c d} hc hd hcd => ?_)
    obtain ⟨a, ha, hlt⟩ := hcd
    refine ⟨a, hold ha, fun b hb => ?_⟩
    rcases hnew hb with rfl | hb
    · exact hbelow c hc a ha
    · exact hlt b hb

/-- A class is opened for a resource that is greater than all there are. -/
theorem concat (h : LeastFirst classes) (hbelow : ∀ c ∈ classes, ∀ a ∈ c.2, compare a r = .lt)
    (root : Nat) : LeastFirst (classes ++ [(root, .ofList [r])]) := by
  constructor
  · intro c hc
    rcases List.mem_append.1 hc with hc | hc
    · exact h.nonempty c hc
    · rw [List.mem_singleton.1 hc]
      exact ⟨r, SortedSet.mem_ofList.2 List.mem_cons_self⟩
  · refine List.pairwise_append.2 ⟨h.ordered, List.pairwise_singleton _ _, fun c hc d hd => ?_⟩
    obtain ⟨a, ha⟩ := h.nonempty c hc
    refine ⟨a, ha, fun b hb => ?_⟩
    rw [List.mem_singleton.1 hd, SortedSet.mem_ofList, List.mem_singleton] at hb
    subst hb
    exact hbelow c hc a ha

theorem putTo (h : LeastFirst classes) (hbelow : ∀ c ∈ classes, ∀ a ∈ c.2, compare a r = .lt)
    (root : Nat) : LeastFirst (putTo root r classes) := by
  rw [Timetable.putTo]
  split
  · exact h.insert hbelow root
  · exact h.concat hbelow root

end LeastFirst

theorem mem_of_mem_putTo {root : Nat} {r a : Resource} {classes : List (Nat × SortedSet Resource)}
    {c : Nat × SortedSet Resource} (hc : c ∈ putTo root r classes) (ha : a ∈ c.2) :
    a = r ∨ ∃ d ∈ classes, a ∈ d.2 := by
  rw [putTo] at hc
  split at hc
  · obtain ⟨d, hd, rfl⟩ := List.mem_map.1 hc
    split at ha
    · exact (SortedSet.mem_insert.1 ha).imp_right fun ha => ⟨d, hd, ha⟩
    · exact .inr ⟨d, hd, ha⟩
  · rcases List.mem_append.1 hc with hc | hc
    · exact .inr ⟨c, hc, ha⟩
    · rw [List.mem_singleton.1 hc, SortedSet.mem_ofList, List.mem_singleton] at ha
      exact .inl ha

/-- Resources in increasing order, each put to the class of its root. -/
theorem LeastFirst.classify {classes : List (Nat × SortedSet Resource)}
    {rest : List (Resource × Nat)} {u : UnionFind} (h : LeastFirst classes)
    (hbelow : ∀ c ∈ classes, ∀ a ∈ c.2, ∀ e ∈ rest, compare a e.1 = .lt)
    (hrest : rest.Pairwise fun e f => compare e.1 f.1 = .lt) :
    LeastFirst (classify u classes rest) := by
  induction rest generalizing u classes with
  | nil => exact h
  | cons e rest ih =>
    obtain ⟨hfirst, hrest⟩ := List.pairwise_cons.1 hrest
    rw [classify_cons]
    refine ih (h.putTo (fun c hc a ha => hbelow c hc a ha e List.mem_cons_self) _) ?_ hrest
    intro c hc a ha f hf
    rcases mem_of_mem_putTo hc ha with rfl | ⟨d, hd, ha⟩
    · exact hfirst f hf
    · exact hbelow d hd a ha f (List.mem_cons_of_mem _ hf)

/-- Whatever the operations are, every independent resource set has a resource that is below all of
the sets behind it. -/
theorem leastFirst_independentResources (slots : List (Slot ω)) :
    ∃ classes, independentResources slots = classes.map Prod.snd ∧ LeastFirst classes := by
  refine ⟨_, rfl, LeastFirst.nil.classify (fun c hc => nomatch hc) ?_⟩
  generalize SortedSet.ofList (slots.flatMap Slot.resourcesInUse) = known
  have hknown : (known.toList.zipIdx.map Prod.fst).Pairwise fun r r' => compare r r' = .lt := by
    rw [List.zipIdx_map_fst]
    exact known.increasing
  exact List.pairwise_map.1 hknown

theorem exists_mem_of_mem_independentResources {slots : List (Slot ω)} :
    ∀ c ∈ independentResources slots, ∃ r, r ∈ c := by
  obtain ⟨classes, heq, hleast⟩ := leastFirst_independentResources slots
  rw [heq]
  intro c hc
  obtain ⟨d, hd, rfl⟩ := List.mem_map.1 hc
  exact hleast.nonempty d hd

/-! ### All there is to say -/

/-- The sets are not empty, share no resource, hold the resources in use and no others, and stand in
the order of their least resources. Resources in use are in one set exactly when they are linked. -/
structure ResourceClasses (slots : List (Slot ω)) (classes : List (SortedSet Resource)) : Prop where
  nonempty : ∀ c ∈ classes, ∃ r, r ∈ c
  disjoint : classes.Pairwise fun c d => ∀ r ∈ c, r ∉ d
  covered : ∀ r, (∃ c ∈ classes, r ∈ c) ↔ ∃ slot ∈ slots, r ∈ slot.resourcesInUse
  ordered : classes.Pairwise fun c d =>
    ∃ r r', c.least? = some r ∧ d.least? = some r' ∧ compare r r' = .lt
  together : ∀ r r', (∃ slot ∈ slots, r ∈ slot.resourcesInUse) →
    ((∃ c ∈ classes, r ∈ c ∧ r' ∈ c) ↔ Linked (slots.flatMap Slot.operations) r r')

/-- **The independent resource sets are the connected components**, in the order of their least
resources. -/
theorem independentResources_classes {slots : List (Slot ω)} (h : ∀ slot ∈ slots, slot.Sound) :
    ResourceClasses slots (independentResources slots) := by
  have hcomp := components_independentResources h
  obtain ⟨classes, heq, hleast⟩ := leastFirst_independentResources slots
  refine ⟨?_, hcomp.disjoint, fun r => ?_, ?_, fun r r' hr => ?_⟩
  · rw [heq]
    intro c hc
    obtain ⟨d, hd, rfl⟩ := List.mem_map.1 hc
    exact hleast.nonempty d hd
  · rw [exists_mem_resourcesInUse_iff h]
    constructor
    · intro hx
      obtain ⟨c, hc, hr⟩ := hx
      exact (hcomp.exists_mem_iff.1 ⟨c, hc, hr, hr⟩).1
    · intro hx
      obtain ⟨c, hc, hr, -⟩ := hcomp.exists_mem_iff.2 ⟨hx, Relation.ReflTransGen.refl⟩
      exact ⟨c, hc, hr⟩
  · rw [heq]
    refine List.pairwise_map.2 (hleast.ordered.imp_of_mem fun {c d} hc hd hcd => ?_)
    obtain ⟨a, ha, hlt⟩ := hcd
    obtain ⟨r, hr⟩ := SortedSet.exists_least? (hleast.nonempty c hc)
    obtain ⟨r', hr'⟩ := SortedSet.exists_least? (hleast.nonempty d hd)
    have hra : (compare r a).isLE = true := (SortedSet.least?_eq_some_iff.1 hr).2 a ha
    have har' : compare a r' = .lt := hlt r' (SortedSet.least?_eq_some_iff.1 hr').1
    exact ⟨r, r', hr, hr', Std.TransCmp.lt_of_isLE_of_lt hra har'⟩
  · rw [hcomp.exists_mem_iff]
    exact and_iff_right ((exists_mem_resourcesInUse_iff h).1 hr)

/-- A chain of two instructions in different slots, and an instruction on a resource before theirs. -/
theorem independentResources_classes_chain :
    let a : Instruction := { name := "a", resources := [.line 3, .line 1] }
    let b : Instruction := { name := "b", resources := [.line 1, .line 2] }
    let c : Instruction := { name := "c", resources := [.line 0] }
    let first : Slot Instruction :=
      ⟨[a], SortedMap.insert (SortedMap.insert ∅ (.line 3) 0) (.line 1) 0⟩
    let second : Slot Instruction := ⟨[b, c], SortedMap.insert
      (SortedMap.insert (SortedMap.insert ∅ (.line 1) 0) (.line 2) 0) (.line 0) 1⟩
    let slots := [first, second]
    (∀ slot ∈ slots, slot.Sound) ∧ ResourceClasses slots (independentResources slots) := by
  intro a b c first second slots
  have hfirst : first.Sound := Slot.Sound.ofOperations (rfl : Slot.ofOperations [a] = .ok first)
  have hsecond : second.Sound :=
    Slot.Sound.ofOperations (rfl : Slot.ofOperations [b, c] = .ok second)
  have hslots : ∀ slot ∈ slots, slot.Sound := by
    simp [slots, hfirst, hsecond]
  exact ⟨hslots, independentResources_classes hslots⟩

end Timetable
