import Timetable.Proofs.Queue.Served
import Timetable.Proofs.Selection.Between

/-!
# Selection between two frontiers

Two frontiers give every resource that one of them names a window of slots. An operation is selected
when one of its resources is named and has a window that holds the slot. It may be found through
several resources, but it is listed once, at the place that the least of them gives it.

* `SelectedBy`, `SelectedBy.unique`, `exists_selectedBy`: the least resource that selects an
  operation.
* `SelectedBy.compare_lt`: of two operations of one slot, the one that is found first is selected by
  a smaller resource.
* `operationsBetween_exact`: what is listed, and in which order.
-/

namespace Timetable

variable {ω : Type} [Operation ω] {slots : List (Slot ω)} {start stop : Frontier}

/-! ### The resource that selects an operation -/

instance (length : Nat) (r : Resource) (i : Nat) : Decidable (Window start stop length r i) :=
  inferInstanceAs (Decidable (_ ∧ _ ∧ _))

/-- The resource is the least one of those of the operation whose windows hold the slot. -/
structure SelectedBy (start stop : Frontier) (length : Nat) (e : Nat × ω) (r : Resource) :
    Prop where
  acts : r ∈ resources e.2
  within : Window start stop length r e.1
  least : ∀ x ∈ resources e.2, Window start stop length x e.1 → (compare r x).isLE = true

theorem SelectedBy.unique {length : Nat} {e : Nat × ω} {r x : Resource}
    (hr : SelectedBy start stop length e r) (hx : SelectedBy start stop length e x) : r = x := by
  have hle := hr.least x hx.acts hx.within
  have hge := hx.least r hr.acts hr.within
  exact Std.LawfulEqCmp.eq_of_compare (Std.OrientedCmp.isLE_antisymm hle hge)

theorem exists_selectedBy {length : Nat} {e : Nat × ω}
    (h : ∃ r ∈ resources e.2, Window start stop length r e.1) :
    ∃ r, SelectedBy start stop length e r := by
  obtain ⟨x, hx, hwindow⟩ := h
  let involved : SortedSet Resource := .ofList (start.keys ++ stop.keys)
  let selects : Resource → Bool := fun r => r ∈ resources e.2 ∧ Window start stop length r e.1
  have hsome : (involved.toList.find? selects).isSome = true :=
    List.find?_isSome.2 ⟨x, SortedSet.mem_ofList.2 hwindow.1, decide_eq_true ⟨hx, hwindow⟩⟩
  obtain ⟨r, hr⟩ := Option.isSome_iff_exists.1 hsome
  obtain ⟨⟨-, hselects⟩, hleast⟩ := (Ordered.find?_eq_some_iff involved.increasing).1 hr
  obtain ⟨hacts, hwithin⟩ := of_decide_eq_true hselects
  refine ⟨r, hacts, hwithin, fun y hy hwindow => ?_⟩
  exact hleast y (SortedSet.mem_ofList.2 hwindow.1) (decide_eq_true ⟨hy, hwindow⟩)

/-! ### The order of the selection -/

/-- Of two operations of one slot, the one that is found first is selected by the smaller resource:
all resources before that of the other one have been gone through when the other one is found. -/
theorem SelectedBy.compare_lt (hs : ∀ slot ∈ slots, slot.Sound) {omitCrossing : Bool} {i p q : Nat}
    {a b : ω} {r x : Resource} (ha : (operationsAt slots i)[p]? = some a)
    (hb : (operationsAt slots i)[q]? = some b)
    (hbefore : ComesBefore (placesBetween slots start stop omitCrossing) (i, p) (i, q))
    (hfound : (i, q) ∈ placesBetween slots start stop omitCrossing)
    (hr : SelectedBy start stop slots.length (i, a) r)
    (hx : SelectedBy start stop slots.length (i, b) x) : compare r x = .lt := by
  obtain ⟨_, -, hplace⟩ := List.mem_flatMap.1 hfound
  obtain ⟨-, -, b', hb', -, hkept⟩ := (mem_placesOn_iff hs).1 hplace
  obtain rfl : b = b' := Option.some.inj (hb.symm.trans hb')
  obtain ⟨hinvolved, hfirst, hlast⟩ := hx.within
  obtain ⟨y, hy, hle, hyplace⟩ := hbefore.exists_le (SortedSet.increasing _)
    (SortedSet.mem_ofList.2 hinvolved)
    ((mem_placesOn_iff hs).2 ⟨hfirst, hlast, b, hb, hx.acts, hkept⟩)
  obtain ⟨hyfirst, hylast, a', ha', hya, -⟩ := (mem_placesOn_iff hs).1 hyplace
  obtain rfl : a = a' := Option.some.inj (ha.symm.trans ha')
  have hry := hr.least y hya ⟨SortedSet.mem_ofList.1 hy, hyfirst, hylast⟩
  rcases hle with hlt | rfl
  · exact Std.TransCmp.lt_of_isLE_of_lt hry hlt
  · rcases Ordering.isLE_iff_eq_lt_or_eq_eq.1 hry with hlt | heq
    · exact hlt
    -- Only one operation of the slot acts on a resource, so no resource selects both.
    · obtain rfl := Std.LawfulEqCmp.eq_of_compare heq
      exact absurd (congrArg (Prod.mk i) (place_unique hs ha hb hr.acts hx.acts)) hbefore.ne

theorem pairwise_operationsBetween (hs : ∀ slot ∈ slots, slot.Sound) (start stop : Frontier)
    (omitCrossing : Bool) :
    (operationsBetween slots start stop omitCrossing).Pairwise fun a b =>
      a.1 < b.1 ∨ a.1 = b.1 ∧ ∃ r x, SelectedBy start stop slots.length a r ∧
        SelectedBy start stop slots.length b x ∧ compare r x = .lt := by
  have hread : ∀ {i p : Nat} {e : Nat × ω}, (i, p) ∈ placesBetween slots start stop omitCrossing →
      (operationAtPlace? slots i p).map (i, ·) = some e →
      e.1 = i ∧ (operationsAt slots i)[p]? = some e.2 ∧
        ∃ r, SelectedBy start stop slots.length (i, e.2) r := by
    intro i p e hplace he
    obtain ⟨op, hop, hselected, -⟩ := (mem_placesBetween_iff hs).1 hplace
    rw [operationAtPlace?, ← getElem?_operationsAt, hop] at he
    cases he
    exact ⟨rfl, hop, exists_selectedBy hselected⟩
  rw [operationsBetween_eq_drain, List.pairwise_filterMap]
  refine (BucketQueue.pairwise_drain _).imp_of_mem fun {first second} hp hq horder => ?_
  intro a ha b hb
  obtain ⟨i, p⟩ := first
  obtain ⟨j, q⟩ := second
  rw [BucketQueue.mem_drain_foldl_enqueue] at hp hq
  obtain ⟨rfl, hpa, r, hr⟩ := hread hp ha
  obtain ⟨rfl, hqb, x, hx⟩ := hread hq hb
  refine horder.imp_right fun hsame => ?_
  obtain ⟨heq, hbefore⟩ := hsame
  dsimp only at heq hpa hqb hbefore
  refine ⟨heq, r, x, hr, hx, ?_⟩
  rw [← heq] at hqb hbefore hq hx
  exact hr.compare_lt hs hpa hqb hbefore hq hx

/-- **Selection between two frontiers is exact.** An operation is listed, once, when one of its
resources has a window that holds its slot; crossing operations are left out where that is asked
for. The list is in the order of the slots, and within a slot in the order of the least resources
that select the operations. -/
theorem operationsBetween_exact (hs : ∀ slot ∈ slots, slot.Sound) (start stop : Frontier)
    (omitCrossing : Bool) :
    (operationsBetween slots start stop omitCrossing).Nodup ∧
    (∀ e, e ∈ operationsBetween slots start stop omitCrossing ↔ e.2 ∈ operationsAt slots e.1 ∧
      (∃ r ∈ resources e.2, Window start stop slots.length r e.1) ∧
      (omitCrossing = true → ∀ r ∈ resources e.2, r ∈ start.keys ++ stop.keys)) ∧
    (operationsBetween slots start stop omitCrossing).Pairwise fun a b =>
      a.1 < b.1 ∨ a.1 = b.1 ∧ ∃ r x, SelectedBy start stop slots.length a r ∧
        SelectedBy start stop slots.length b x ∧ compare r x = .lt := by
  have hordered := pairwise_operationsBetween hs start stop omitCrossing
  refine ⟨hordered.imp fun {a b} horder heq => ?_, fun e => mem_operationsBetween_iff hs, hordered⟩
  subst heq
  rcases horder with hlt | ⟨-, r, x, hr, hx, hlt⟩
  · exact Nat.lt_irrefl _ hlt
  · rw [hr.unique hx] at hlt
    exact Ordered.not_compare_self_lt x hlt

/-- In the first slot the last operation is selected by the last one of its resources, for the first
one begins behind it. The operation of the second slot crosses. -/
theorem operationsBetween_exact_overlapping :
    let a : Instruction := { name := "a", resources := [.line 0, .line 3] }
    let b : Instruction := { name := "b", resources := [.line 2] }
    let c : Instruction := { name := "c", resources := [.line 1] }
    let crossing : Instruction := { name := "crossing", resources := [.line 4, .line 1, .line 0] }
    let slots := [[a, b, c], [crossing]].map Slot.ofApart
    let start : Frontier := SortedMap.ofList [(.line 0, 1), (.line 1, 0)]
    let stop : Frontier := SortedMap.ofList [(.line 2, 2), (.line 3, 1)]
    let named := fun l : List (Nat × Instruction) => l.map fun e => (e.1, e.2.name)
    let chosen := operationsBetween slots start stop true
    (∀ slot ∈ slots, slot.Sound) ∧
    named (operationsBetween slots start stop false) =
      [(0, "c"), (0, "b"), (0, "a"), (1, "crossing")] ∧
    named chosen = [(0, "c"), (0, "b"), (0, "a")] ∧ chosen.Nodup ∧
    (∀ e, e ∈ chosen ↔ e.2 ∈ operationsAt slots e.1 ∧
      (∃ r ∈ resources e.2, Window start stop slots.length r e.1) ∧
      (true = true → ∀ r ∈ resources e.2, r ∈ start.keys ++ stop.keys)) ∧
    chosen.Pairwise fun a b => a.1 < b.1 ∨ a.1 = b.1 ∧ ∃ r x,
      SelectedBy start stop slots.length a r ∧ SelectedBy start stop slots.length b x ∧
        compare r x = .lt := by
  intro a b c crossing slots start stop named chosen
  have hs : ∀ slot ∈ slots, slot.Sound := Slot.sound_map_ofApart (by decide)
  exact ⟨hs, by decide +kernel, by decide +kernel, operationsBetween_exact hs start stop true⟩

end Timetable
