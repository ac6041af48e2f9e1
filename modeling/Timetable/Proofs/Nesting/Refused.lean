import Timetable.Proofs.Nesting.Search
import Timetable.Proofs.Schedule.Edit

/-!
# What nests in itself is refused

Every edit that puts operations into a schedule asks whether one of them nests in itself, and it
asks before it changes the schedule. To say what an edit would do otherwise, the operations are
taken for operations none of which nests in itself: all else in the edit is as it was, and where it
would be made in this way, the answer depends on the nesting alone.

* `Operation.trusting`: the operations, none of which is taken to nest in itself.
* `refusing`: an answer, unless one of the operations nests in itself.
* `Edit.operations`, `Edit.Admissible`: what an edit puts in, and whether it would be made but for
  the nesting.
* `Edit.refused`: what an admissible edit answers to an operation that nests in itself.
* `nesting_checked`: the search is exact, and all edits go by it.
-/

namespace Timetable

variable {ω : Type}

/-- The operations as they are, except that none of them is taken to nest in itself. -/
@[reducible] def Operation.trusting [inst : Operation ω] : Operation ω :=
  { inst with nestsInItself := fun _ => false }

def Edit.operations : Edit ω → List ω
  | insert _ bundle _ | append bundle _ | insertIntoRange bundle _ _
  | insertAtFrontier bundle _ _ => bundle.operations
  | batchInsert edits | batchInsertInto edits => edits.flatMap fun edit => edit.2.operations
  | batchReplace edits => edits.map fun edit => edit.2.2
  | setSlot _ slot => slot.operations
  | splice _ _ bundles => bundles.flatMap Bundle.operations
  | batchRemove _ | removeSlot _ => []

variable [inst : Operation ω]

/-- The edit would be made if no operation nested in itself. -/
def Edit.Admissible (build : Build) (s : Schedule ω) (edit : Edit ω) : Prop :=
  (@Edit.run ω .trusting build s edit).answer = .ok ()

/-! ### What does not ask about nesting -/

namespace Schedule

theorem earliestSlot_trusting (s : Schedule ω) (op : ω) (k best : Nat) :
    @earliestSlot ω .trusting s op k best = s.earliestSlot op k best := by
  induction k generalizing best with
  | zero => rfl
  | succ k ih =>
    unfold earliestSlot
    cases s.slots[k]? with
    | none => rfl
    | some slot => exact if_congr Iff.rfl rfl (ih _)

theorem pickSlot_trusting (s : Schedule ω) (k : Nat) (op : ω) (strategy : Strategy) :
    @pickSlot ω .trusting s k op strategy = s.pickSlot k op strategy := by
  cases strategy with
  | earliest => exact if_congr Iff.rfl (congrArg (·, s) (earliestSlot_trusting s op k k)) rfl
  | _ => rfl

theorem insertItems_trusting (s : Schedule ω) (k : Nat) (strategy : Strategy)
    (items : List (Item ω)) :
    @insertItems ω .trusting s k strategy items = s.insertItems k strategy items := by
  have hpush : @pushAt ω .trusting = @pushAt ω inst := rfl
  induction items generalizing s k strategy with
  | nil => rfl
  | cons item items ih =>
    cases item with
    | slot slot => exact ih _ _ _
    | operation op =>
      unfold insertItems
      rw [pickSlot_trusting, hpush]
      obtain ⟨p, picked⟩ := s.pickSlot k op strategy
      dsimp only
      cases (picked.padTo (p + 1)).pushAt p op with
      | error e => rfl
      | ok s' => exact ih _ _ _

end Schedule

theorem Slot.pushAll_trusting (s : Slot ω) (ops : List ω) :
    @Slot.pushAll ω .trusting s ops = s.pushAll ops := by
  induction ops generalizing s with
  | nil => rfl
  | cons op ops ih => exact congrArg (s.push op >>= ·) (funext fun s' => ih s')

/-! ### Refusing -/

/-- The answer, unless one of the operations nests in itself. -/
def refusing {α : Type} (ops : List ω) (answer : Except Fault α) : Except Fault α :=
  if ops.any nestsInItself then .error .cyclicNesting else answer

section Refusing

variable {α : Type}

theorem refusing_eq_error {ops : List ω} (h : ops.any nestsInItself = true)
    (answer : Except Fault α) : refusing ops answer = .error .cyclicNesting := if_pos h

theorem refusing_eq_self {ops : List ω} (h : ops.any nestsInItself = false)
    (answer : Except Fault α) : refusing ops answer = answer := if_neg (by rw [h]; decide)

theorem refusing_congr {ops ops' : List ω} (h : ∀ op, op ∈ ops ↔ op ∈ ops')
    (answer : Except Fault α) : refusing ops answer = refusing ops' answer := by
  rw [refusing, refusing, Bool.eq_iff_iff.2 (List.any_eq_true.trans ?_)]
  simp only [h, List.any_eq_true]

theorem refusing_append (ops ops' : List ω) (answer : Except Fault α) :
    refusing (ops ++ ops') answer = refusing ops (refusing ops' answer) := by
  rw [refusing, refusing, refusing, List.any_append]
  cases ops.any nestsInItself <;> rfl

theorem refusing_cons (op : ω) (ops : List ω) (answer : Except Fault α) :
    refusing (op :: ops) answer = refusing [op] (refusing ops answer) :=
  refusing_append [op] ops answer

/-- What comes after a check is refused with it. -/
theorem refusing_bind {β : Type} (ops : List ω) (a : α) (f : α → Except Fault β) :
    refusing ops (.ok a) >>= f = refusing ops (f a) := by
  rw [refusing, refusing]
  split <;> rfl

end Refusing

/-! ### The checks -/

namespace Schedule

theorem checkOperation_eq_refusing {op : ω} (h : @checkOperation ω .trusting op = .ok ()) :
    checkOperation op = refusing [op] (.ok ()) := by
  have hnodup : firstRepeated? [] (resources op) = none :=
    firstRepeated?_eq_none_iff.2 ⟨((@checkOperation_eq_ok_iff ω .trusting op).1 h).1, by simp⟩
  rw [checkOperation, hnodup, refusing, List.any_cons, List.any_nil, Bool.or_false]

theorem checkOperations_eq_refusing {ops : List ω} (h : @checkOperations ω .trusting ops = .ok ()) :
    checkOperations ops = refusing ops (.ok ()) := by
  induction ops with
  | nil => rfl
  | cons op ops ih =>
    obtain ⟨_, hop, hops⟩ := bind_eq_ok_iff.1 h
    have hbind : checkOperations (op :: ops) =
        checkOperation op >>= fun _ => checkOperations ops := rfl
    rw [hbind, checkOperation_eq_refusing hop, refusing_bind, ih hops, ← refusing_cons]

theorem checkSlot_eq_refusing (slot : Slot ω) :
    checkSlot slot = refusing slot.operations (.ok ()) := rfl

theorem checkSlots_eq_refusing (slots : List (Slot ω)) :
    checkSlots slots = refusing (slots.flatMap Slot.operations) (.ok ()) := by
  induction slots with
  | nil => rfl
  | cons slot slots ih =>
    have hbind : checkSlots (slot :: slots) = checkSlot slot >>= fun _ => checkSlots slots := rfl
    rw [hbind, checkSlot_eq_refusing, refusing_bind, ih, ← refusing_append, List.flatMap_cons]

theorem checkItems_eq_refusing {items : List (Item ω)}
    (h : @checkItems ω .trusting items = .ok ()) :
    checkItems items = refusing (items.flatMap Item.operations) (.ok ()) := by
  induction items with
  | nil => rfl
  | cons item items ih =>
    obtain ⟨_, hitem, hitems⟩ := bind_eq_ok_iff.1 h
    have hbind : checkItems (item :: items) = checkItem item >>= fun _ => checkItems items := rfl
    have hhere : checkItem item = refusing item.operations (.ok ()) := by
      cases item with
      | operation op => exact checkOperation_eq_refusing hitem
      | slot slot => exact checkSlot_eq_refusing slot
    rw [hbind, hhere, refusing_bind, ih hitems, ← refusing_append, List.flatMap_cons]

/-! ### Insertion -/

/-- An insertion that would succeed otherwise is refused, or made just as it would be. -/
theorem insert_eq_of_trusting {s : Schedule ω} {index : Nat} {bundle : Bundle ω}
    {strategy : Strategy} {next : Nat}
    (h : (@insert ω .trusting s index bundle strategy).answer = .ok next) :
    (s.insert index bundle strategy).answer = refusing bundle.operations (.ok next) ∧
      (bundle.operations.any nestsInItself = false →
        s.insert index bundle strategy = @insert ω .trusting s index bundle strategy) := by
  unfold insert at h
  cases hcheck : @checkItems ω .trusting bundle.items with
  | error e =>
    rw [hcheck] at h
    cases h
  | ok _ =>
    have hmade : @insert ω .trusting s index bundle strategy =
        s.insertItems (min index s.length) strategy bundle.items := by
      unfold insert
      rw [hcheck]
      exact insertItems_trusting s _ strategy bundle.items
    have hans : (s.insertItems (min index s.length) strategy bundle.items).answer = .ok next := by
      rw [← h, hcheck]
      exact congrArg Outcome.answer (insertItems_trusting s _ strategy bundle.items).symm
    have hcheck' : checkItems bundle.items = refusing bundle.operations (.ok ()) :=
      checkItems_eq_refusing hcheck
    rw [hmade, insert, hcheck']
    cases hany : bundle.operations.any nestsInItself with
    | true =>
      rw [refusing_eq_error hany, refusing_eq_error hany]
      exact ⟨rfl, fun hnone => absurd hnone (by decide)⟩
    | false =>
      rw [refusing_eq_self hany, refusing_eq_self hany]
      exact ⟨hans, fun _ => rfl⟩

theorem insertGroups_eq_refusing {build : Build} {groups : List (Nat × List (Bundle ω))} :
    ∀ {s s' : Schedule ω} {shift : Nat},
      @insertGroups ω .trusting build s shift groups = .ok s' →
      s.insertGroups build shift groups =
        refusing ((groups.flatMap Prod.snd).flatMap Bundle.operations) (.ok s') := by
  induction groups with
  | nil =>
    intro s s' shift h
    exact h
  | cons group groups ih =>
    intro s s' shift h
    obtain ⟨index, bundles⟩ := group
    unfold insertGroups at h ⊢
    split at h
    · cases h
    rename_i hsum
    rw [if_neg hsum]
    dsimp only at h ⊢
    cases hans : (@insert ω .trusting s (word (index + shift)) (.sequence bundles.reverse)
        .earliest).answer with
    | error e =>
      rw [hans] at h
      cases h
    | ok next =>
      rw [hans] at h
      obtain ⟨hanswer, hmade⟩ := insert_eq_of_trusting hans
      have hops : ∀ op, op ∈ (Bundle.sequence bundles.reverse).operations ↔
          op ∈ bundles.flatMap Bundle.operations := by
        intro op
        rw [Bundle.operations_sequence, List.mem_flatMap, List.mem_flatMap]
        simp only [List.mem_reverse]
      rw [List.flatMap_cons, List.flatMap_append, refusing_append, ← refusing_congr hops, hanswer]
      cases hany : (Bundle.sequence bundles.reverse).operations.any nestsInItself with
      | true => rw [refusing_eq_error hany, refusing_eq_error hany]
      | false =>
        rw [refusing_eq_self hany, refusing_eq_self hany, hmade hany]
        exact ih h

/-! ### Edits inside slots -/

theorem joinSlot_eq_refusing {index : Nat} {ops : List ω} :
    ∀ {s s' : Schedule ω}, @joinSlot ω .trusting s index ops = .ok s' →
      s.joinSlot index ops = refusing ops (.ok s') := by
  induction ops with
  | nil =>
    intro s s' h
    exact h
  | cons op ops ih =>
    intro s s' h
    unfold joinSlot at h ⊢
    cases hslot : s.slots[index]? with
    | none =>
      rw [hslot] at h
      cases h
    | some slot =>
      rw [hslot] at h
      obtain ⟨_, hop, h⟩ := bind_eq_ok_iff.1 h
      obtain ⟨slot', hpush, h⟩ := bind_eq_ok_iff.1 h
      have hpush' : slot.push op = .ok slot' := hpush
      dsimp only at h ⊢
      rw [checkOperation_eq_refusing hop, refusing_bind, hpush', refusing_cons op ops]
      split at h
      · rename_i haccept
        rw [← ih h]
        exact congrArg (refusing [op]) (if_pos haccept)
      · cases h

theorem joinEach_eq_refusing {edits : List (Nat × Bundle ω)} :
    ∀ {s s' : Schedule ω}, @joinEach ω .trusting s edits = .ok s' →
      s.joinEach edits = refusing (edits.flatMap fun edit => edit.2.operations) (.ok s') := by
  induction edits with
  | nil =>
    intro s s' h
    exact h
  | cons edit edits ih =>
    intro s s' h
    obtain ⟨index, bundle⟩ := edit
    unfold joinEach at h ⊢
    split at h
    · rename_i hlt
      obtain ⟨joined, hjoin, h⟩ := bind_eq_ok_iff.1 h
      rw [if_pos hlt, joinSlot_eq_refusing hjoin, refusing_bind, ih h, ← refusing_append,
        List.flatMap_cons]
    · cases h

theorem replaceEach_eq_refusing {edits : List (Nat × ω × ω)} :
    ∀ {s s' : Schedule ω}, @replaceEach ω .trusting s edits = .ok s' →
      s.replaceEach edits = refusing (edits.map fun edit => edit.2.2) (.ok s') := by
  induction edits with
  | nil =>
    intro s s' h
    exact h
  | cons edit edits ih =>
    intro s s' h
    obtain ⟨index, old, new⟩ := edit
    obtain ⟨_, hop, h⟩ := bind_eq_ok_iff.1 h
    obtain ⟨slot, hslot, h⟩ := bind_eq_ok_iff.1 h
    obtain ⟨slot', hnew, h⟩ := bind_eq_ok_iff.1 h
    have hslot' : s.slotHolding index old = .ok slot := hslot
    have hnew' : slot.replacing old new = .ok slot' := by
      rw [← hnew]
      exact (Slot.pushAll_trusting _ _).symm
    unfold replaceEach
    rw [checkOperation_eq_refusing hop, refusing_bind, List.map_cons,
      refusing_cons new (edits.map _), ← ih h, hslot']
    refine congrArg (refusing [new]) ?_
    show (slot.replacing old new >>= _) = _
    rw [hnew']
    rfl

end Schedule

/-! ### What an edit answers -/

namespace Schedule

theorem insertIntoRange_refused {s : Schedule ω} {bundle : Bundle ω} {start stop next : Nat}
    (h : (@insertIntoRange ω .trusting s bundle start stop).answer = .ok next)
    (hany : bundle.operations.any nestsInItself = true) :
    (s.insertIntoRange bundle start stop).answer = .error .cyclicNesting := by
  unfold insertIntoRange at h ⊢
  split at h
  · cases h
  · rename_i hrange
    cases hcheck : @checkOperations ω .trusting bundle.operations with
    | error e =>
      rw [hcheck] at h
      cases h
    | ok _ => rw [if_neg hrange, checkOperations_eq_refusing hcheck, refusing_eq_error hany]

theorem insertAtFrontier_refused {build : Build} {s : Schedule ω} {bundle : Bundle ω} {start : Nat}
    {frontier final : Frontier}
    (h : (@insertAtFrontier ω .trusting build s bundle start frontier).answer = .ok final)
    (hany : bundle.operations.any nestsInItself = true) :
    (s.insertAtFrontier build bundle start frontier).answer = .error .cyclicNesting := by
  unfold insertAtFrontier at h ⊢
  dsimp only at h ⊢
  split at h
  · rename_i hempty
    rw [List.isEmpty_iff.1 hempty] at hany
    cases hany
  · rename_i hne
    obtain ⟨scratch, hedit, -⟩ := commit_eq_ok h
    obtain ⟨_, hcheck, -⟩ := bind_eq_ok_iff.1 hedit
    rw [if_neg hne, checkOperations_eq_refusing hcheck, refusing_eq_error hany]
    rfl

theorem setSlot_refused {s : Schedule ω} {index : Nat} {slot : Slot ω}
    (h : (@setSlot ω .trusting s index slot).answer = .ok ())
    (hany : slot.operations.any nestsInItself = true) :
    (s.setSlot index slot).answer = .error .cyclicNesting := by
  unfold setSlot at h ⊢
  split at h
  · rename_i hlt
    rw [if_pos hlt, checkSlot_eq_refusing, refusing_eq_error hany]
  · cases h

theorem splice_refused {s : Schedule ω} {start stop : Nat} {bundles : List (Bundle ω)}
    (h : (@splice ω .trusting s start stop bundles).answer = .ok ())
    (hany : (bundles.flatMap Bundle.operations).any nestsInItself = true) :
    (s.splice start stop bundles).answer = .error .cyclicNesting := by
  unfold splice at h ⊢
  split at h
  · cases h
  · rename_i hrange
    cases hslots : bundles.mapM Bundle.asSlot with
    | error e =>
      rw [hslots] at h
      cases h
    | ok slots =>
      rw [eq_map_of_mapM_asSlot hslots, List.flatMap_map] at hany
      have hany' : (slots.flatMap Slot.operations).any nestsInItself = true := by
        rw [← hany]
        refine congrArg (List.any · nestsInItself) (List.flatMap_congr fun slot _ => ?_)
        exact (List.flatMap_singleton _ _).symm
      rw [if_neg hrange]
      dsimp only
      rw [checkSlots_eq_refusing, refusing_eq_error hany']

omit inst in
/-- An edit that is refused on a copy of the schedule is refused. -/
theorem commit_map_eq_error {s : Schedule ω} {edit : Except Fault (Schedule ω)} {e : Fault}
    (h : edit = .error e) : (s.commit (edit.map (·, ()))).answer = .error e := by
  rw [h]
  rfl

end Schedule

/-- An edit that would be made otherwise is refused when one of its operations nests in itself. -/
theorem Edit.refused {build : Build} {s : Schedule ω} {edit : Edit ω}
    (h : edit.Admissible build s) (hany : edit.operations.any nestsInItself = true) :
    (edit.run build s).answer = .error .cyclicNesting := by
  cases edit with
  | insert index bundle strategy =>
    obtain ⟨next, hans⟩ := Outcome.exists_answer_of_forget h
    rw [run, Outcome.forget_answer_eq_error_iff, (Schedule.insert_eq_of_trusting hans).1]
    exact refusing_eq_error hany _
  | append bundle strategy =>
    obtain ⟨next, hans⟩ := Outcome.exists_answer_of_forget h
    rw [run, Outcome.forget_answer_eq_error_iff, Schedule.append,
      (Schedule.insert_eq_of_trusting hans).1]
    exact refusing_eq_error hany _
  | insertIntoRange bundle start stop =>
    obtain ⟨next, hans⟩ := Outcome.exists_answer_of_forget h
    exact Outcome.forget_answer_eq_error_iff.2 (Schedule.insertIntoRange_refused hans hany)
  | insertAtFrontier bundle start frontier =>
    obtain ⟨final, hans⟩ := Outcome.exists_answer_of_forget h
    exact Outcome.forget_answer_eq_error_iff.2 (Schedule.insertAtFrontier_refused hans hany)
  | batchInsert edits =>
    obtain ⟨scratch, hinsert, -⟩ := Schedule.commit_map_eq_ok h
    refine Schedule.commit_map_eq_error ((Schedule.insertGroups_eq_refusing hinsert).trans ?_)
    rw [Schedule.flatMap_groupByIndex, List.flatMap_map, ← refusing_eq_error hany (.ok scratch)]
    refine refusing_congr (fun op => ?_) _
    exact ((edits.mergeSort_perm _).flatMap_right _).mem_iff
  | batchReplace edits =>
    obtain ⟨scratch, hreplace, -⟩ := Schedule.commit_map_eq_ok h
    refine Schedule.commit_map_eq_error ((Schedule.replaceEach_eq_refusing hreplace).trans ?_)
    exact refusing_eq_error hany _
  | batchInsertInto edits =>
    obtain ⟨scratch, hjoin, -⟩ := Schedule.commit_map_eq_ok h
    refine Schedule.commit_map_eq_error ((Schedule.joinEach_eq_refusing hjoin).trans ?_)
    exact refusing_eq_error hany _
  | setSlot index slot => exact Schedule.setSlot_refused h hany
  | splice start stop bundles => exact Schedule.splice_refused h hany
  | batchRemove edits => cases hany
  | removeSlot index => cases hany

/-- **The search for cycles is exact, and edits go by it.** The search is never deeper than there
are schedules, and it finds a cycle just where a schedule below the operation stands below one of
its own operations; schedules may otherwise be shared. An edit that would be made but for such an
operation is refused and changes nothing, in every build. -/
theorem nesting_checked {β : Type} [DecidableEq β] {n : Nesting ω β} (hn : n.Describes) :
    (∀ op met inner, n.Visits op met inner → met.length ≤ n.bodies.length ∧
      (n.closesCycle met inner = true → nestsInItself op = true)) ∧
    (∀ op, nestsInItself op = true ↔ ∃ b, n.Below op b ∧ n.ContainsItself b) ∧
    (∀ op, Schedule.checkOperation op = .ok () ↔
      (resources op).Nodup ∧ ∀ b, n.Below op b → ¬n.ContainsItself b) ∧
    ∀ build, ∀ s : Schedule ω, s.Sound → ∀ edit : Edit ω, edit.Sound → edit.Admissible build s →
      ∀ op ∈ edit.operations, ∀ b, n.Below op b → n.ContainsItself b →
        (edit.run build s).answer = .error .cyclicNesting ∧ (edit.run build s).left = s := by
  have hexact : ∀ op, nestsInItself op = true ↔ ∃ b, n.Below op b ∧ n.ContainsItself b := by
    intro op
    rw [hn.search_eq, Nesting.nestsInItself_iff]
  refine ⟨fun op met inner h => ⟨h.length_le, fun hcloses => ?_⟩, hexact, fun op => ?_, ?_⟩
  · rw [hn.search_eq]
    exact h.nestsInItself hcloses
  · rw [Schedule.checkOperation_eq_ok_iff, ← Bool.not_eq_true, hexact]
    push Not
    rfl
  · intro build s hs edit hedit hadmissible op hop b hbelow hself
    have hany : edit.operations.any nestsInItself = true :=
      List.any_eq_true.2 ⟨op, hop, (hexact op).2 ⟨b, hbelow, hself⟩⟩
    have herror := Edit.refused hadmissible hany
    exact ⟨herror, Edit.left_of_error hs hedit herror⟩

/-- Two entries that stand in each other's bodies, and one whose body holds the same entry twice. -/
theorem nesting_checked_catalogue :
    let lone (r : Int64) (body? : Option (List (List String))) : Catalogue.Entry :=
      ⟨[.line r], body?⟩
    let c : Catalogue := ⟨[("a", lone 0 (some [["b"]])), ("b", lone 0 (some [["a"]])),
      ("s", lone 1 (some [["z"]])), ("twice", lone 1 (some [["s"], ["s"]])), ("z", lone 1 none)]⟩
    let node (name : String) : Catalogue.Node c := ⟨name⟩
    let s : Schedule (Catalogue.Node c) := {}
    let edit : Edit (Catalogue.Node c) :=
      .append (.sequence [.operation (node "twice"), .operation (node "a")]) .earliest
    (c.nesting.Describes ∧ edit.Sound ∧ edit.Admissible .checked s ∧
      c.nesting.Below (node "a") "b" ∧ c.nesting.ContainsItself "b") ∧
    Schedule.checkOperation (node "twice") = .ok () ∧
    (edit.run .checked s).answer = .error .cyclicNesting ∧ (edit.run .checked s).left = s := by
  intro lone c node s edit
  have hs : s.Sound := fun slot hslot => nomatch hslot
  have hedit : edit.Sound :=
    Bundle.sound_sequence (by simp [Bundle.sound_operation])
  have hadmissible : edit.Admissible .checked s := rfl
  have hbelow : c.nesting.Below (node "a") "b" :=
    .deeper (b := "a") rfl (List.mem_singleton.2 (rfl : node "b" = node "b")) (.held rfl)
  have hself : c.nesting.ContainsItself "b" :=
    ⟨node "a", List.mem_singleton.2 rfl, hbelow⟩
  have htwice : ∀ inner ∈ c.nesting.inside "twice", inner = node "s" :=
    List.forall_mem_cons.2 ⟨rfl, List.forall_mem_singleton.2 rfl⟩
  have hbelow_z : ∀ b, ¬c.nesting.Below (node "z") b :=
    Nesting.not_below_of_held?_eq_none rfl
  have hbelow_s : ∀ b, c.nesting.Below (node "s") b → b = "s" := by
    intro b hb
    rcases (Nesting.below_iff_of_held? (b := "s") rfl).1 hb with rfl | ⟨inner, hinner, hb⟩
    · rfl
    · have hinner' : inner = node "z" := List.mem_singleton.1 hinner
      exact absurd (hinner' ▸ hb) (hbelow_z b)
  obtain ⟨-, -, hcheck, hrefused⟩ := nesting_checked c.describes_nesting
  refine ⟨⟨c.describes_nesting, hedit, hadmissible, hbelow, hself⟩, ?_, ?_⟩
  · refine (hcheck _).2 ⟨by decide, fun b hb hcycle => ?_⟩
    obtain ⟨inner, hinner, hdown⟩ := hcycle
    rcases (Nesting.below_iff_of_held? (b := "twice") rfl).1 hb with rfl | ⟨shared, hshared, hb⟩
    · exact absurd (hbelow_s _ (htwice inner hinner ▸ hdown)) (by decide)
    · obtain rfl := hbelow_s b (htwice shared hshared ▸ hb)
      have hinner' : inner = node "z" := List.mem_singleton.1 hinner
      exact hbelow_z _ (hinner' ▸ hdown)
  · exact hrefused .checked s hs edit hedit hadmissible (node "a") (by decide) "b" hbelow hself

end Timetable
