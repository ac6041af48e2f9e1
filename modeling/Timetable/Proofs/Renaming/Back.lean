import Timetable.Proofs.Renaming.Thorough
import Timetable.Proofs.Slot.UpToOrder

/-!
# Renaming forth and back

A renaming that can be undone gives every resource back. It does not give back everything else: a
renamed body is under no acceptance rule, and bodies are compared together with their rules. So the
way forth and back ends at the schedule without the rules of the bodies in it, which is the schedule
itself exactly when no body has a rule.

* `Slot.Sound.sameBy_self`: a slot is the same as itself if its operations equal themselves.
* `Instruction.sameTo_self`, `Schedule.same_self`: equality is reflexive on sound slots.
* `Instruction.Ruleless`, `Instruction.ruleless_of_listSameBy`: what equals itself without the rules
  of bodies has none.
* `rename_back`: where the way forth and back ends.
-/

namespace Timetable

/-! ### Comparing a slot with what it was made from -/

section

variable {ω : Type} [Operation ω] {s : Slot ω} {eq : ω → ω → Bool}

/-- A slot holds its operations if they are equal to themselves. -/
theorem Slot.Sound.holdsBy_of_mem (hs : s.Sound) {op : ω} (hop : op ∈ s.operations)
    (h : eq op op = true) : s.holdsBy resources eq op = true := by
  by_cases hne : resources op = []
  · rw [holdsBy, hne]
    exact List.any_eq_true.2 ⟨op, hop, h⟩
  · rw [hs.holdsBy_eq hop rfl hne]
    exact h

theorem Slot.Sound.sameBy_self (hs : s.Sound) (h : ∀ op ∈ s.operations, eq op op = true) :
    s.sameBy resources eq s = true := by
  rw [sameBy, Bool.and_eq_true, List.all_eq_true]
  exact ⟨beq_self_eq_true _, fun op hop => hs.holdsBy_of_mem hop (h op hop)⟩

omit [Operation ω] in
/-- Slots made from the same list are compared pair by pair. -/
theorem Slot.listSameBy_map {σ : Type} (uses : ω → List Resource) (eq : ω → ω → Bool)
    (F G : σ → Slot ω) (l : List σ) :
    listSameBy uses eq (l.map F) (l.map G) = l.all fun x => (F x).sameBy uses eq (G x) := by
  induction l with
  | nil => rfl
  | cons x l ih => rw [List.map_cons, List.map_cons, listSameBy, ih, List.all_cons]

theorem Slot.listSameBy_self {slots : List (Slot ω)} (hs : ∀ slot ∈ slots, slot.Sound)
    (h : ∀ slot ∈ slots, ∀ op ∈ slot.operations, eq op op = true) :
    listSameBy resources eq slots slots = true := by
  have hmap := listSameBy_map resources eq id id slots
  rw [List.map_id, List.all_eq_true.2 fun slot hslot => ?_] at hmap
  · exact hmap
  · exact (hs slot hslot).sameBy_self (h slot hslot)

end

namespace Instruction

/-! ### Equality is reflexive -/

/-- An instruction equals itself as far as one looks, if one looks to the bottom. -/
theorem sameTo_self {op : Instruction}
    (h : ∀ inner, body? op = some inner → Throughout Slot.Sound inner) {levels : Nat}
    (hlevels : op.depth < levels) : sameTo levels op op = true := by
  induction op using body_induction generalizing levels with
  | step op ih =>
  obtain ⟨levels, rfl⟩ : ∃ n, levels = n + 1 := ⟨levels - 1, by omega⟩
  have hbody : sameBody (sameTo levels) op.body op.body = true := by
    cases hb : op.body with
    | none => rfl
    | some b =>
      have hinner := h b.slots (body?_eq.2 ⟨b.ruleSerial, hb⟩)
      rw [sameBody, beq_self_eq_true, Bool.true_and]
      refine Slot.listSameBy_self hinner.here fun slot hslot inner hmem => ?_
      have hdepth := depth_lt_of_body hb hslot hmem
      exact ih b hb slot hslot inner hmem (hinner.inner slot hslot inner hmem) (by omega)
  rw [sameTo, hbody]
  simp

end Instruction

theorem Schedule.same_self {s : Schedule Instruction} (h : Throughout Slot.Sound s.slots) :
    (s == s) = true := by
  have hslots : (s.slots == s.slots) = true := by
    rw [← Slot.listSameBy_eq_beq]
    refine Slot.listSameBy_self h.here fun slot hslot op hop => ?_
    exact Instruction.sameTo_self (h.inner slot hslot op hop) (Nat.lt_succ_self _)
  have hrule : Schedule.same.sameRule s.acceptance s.acceptance = true := by
    cases s.acceptance with
    | none => rfl
    | some rule => exact beq_self_eq_true rule.serial
  exact Bool.and_eq_true_iff.2 ⟨hrule, hslots⟩

namespace Instruction

/-! ### Rules of bodies -/

/-- No operation of the slot holds a body that is under an acceptance rule. -/
def Ruleless (slot : Slot Instruction) : Prop :=
  ∀ op ∈ slot.operations, ∀ b, op.body = some b → b.ruleSerial = none

/-- Where there are no rules, dropping them is keeping them. -/
theorem carrySlots_of_ruleless {f : Resource → Resource} {slots : List (Slot Instruction)}
    (h : Throughout Ruleless slots) :
    carrySlots f (fun _ => none) slots = carrySlots f id slots := by
  induction h with
  | @intro slots here _ ih =>
    rw [carrySlots_eq, carrySlots_eq]
    refine List.map_congr_left fun slot hslot => Slot.mapOperations_congr fun op hop => ?_
    have hbody : op.body.map (fun b => (⟨carrySlots f (fun _ => none) b.slots, none⟩ :
        Body Instruction)) = op.body.map fun b => ⟨carrySlots f id b.slots, b.ruleSerial⟩ := by
      refine Option.map_congr fun b hb => ?_
      rw [ih slot hslot op hop b.slots (body?_eq.2 ⟨b.ruleSerial, hb⟩), here slot hslot op hop b hb]
    simp only [carry_eq, id_eq, hbody]

theorem unruled_of_ruleless {slots : List (Slot Instruction)} (hs : Throughout Slot.Sound slots)
    (h : Throughout Ruleless slots) : unruled slots = slots := by
  rw [unruled, carrySlots_of_ruleless h, carrySlots_id hs]

/-- An instruction around lists of instructions adds no rule. -/
theorem ruleless_nesting (name : String) {lists : List (List Instruction)}
    (h : Throughout Ruleless (lists.map slotOf)) :
    Throughout Ruleless [slotOf [nesting name lists]] := by
  refine .intro (List.forall_mem_singleton.2 (List.forall_mem_singleton.2 ?_))
    (List.forall_mem_singleton.2 (List.forall_mem_singleton.2 ?_))
  · rintro _ ⟨⟩
    rfl
  · rintro _ ⟨⟩
    exact h

/-! ### Equal to itself without rules -/

def EitherWay {α : Type} (eq : α → α → Bool) (a b : α) : Prop := eq a b = true ∨ eq b a = true

/-- The slot is sound, and each of its operations acts on something, so that it is found by that. -/
structure Locatable (slot : Slot Instruction) : Prop where
  sound : slot.Sound
  acts : ∀ op ∈ slot.operations, op.resources ≠ []

theorem unruled_eq_map (slots : List (Slot Instruction)) :
    unruled slots = slots.map (Slot.mapOperations withoutRules) :=
  carrySlots_eq slots

theorem Locatable.sound_withoutRules {slot : Slot Instruction} (h : Locatable slot) :
    (slot.mapOperations withoutRules).Sound :=
  (h.sound.apart Function.injective_id).sound_map resources_carry

variable {eq : Instruction → Instruction → Bool}

/-- If a slot equals itself without rules, then so do its operations. The way round changes, for it
is the operations of the other slot that are asked. -/
theorem Locatable.eitherWay_of_sameBy {slot : Slot Instruction} (h : Locatable slot)
    (hsame : EitherWay (Slot.sameBy resources eq) (slot.mapOperations withoutRules) slot)
    {op : Instruction} (hop : op ∈ slot.operations) : EitherWay eq op.withoutRules op := by
  have hmem : op.withoutRules ∈ (slot.mapOperations withoutRules).operations :=
    List.mem_map_of_mem hop
  have hrs : Timetable.resources op.withoutRules = Timetable.resources op := by
    rw [withoutRules, resources_carry, List.map_id]
  have hne : Timetable.resources op ≠ [] := h.acts op hop
  rcases hsame with hsame | hsame
  · have hholds := List.all_eq_true.1 (Bool.and_eq_true_iff.1 hsame).2 _ hmem
    exact .inr ((h.sound.holdsBy_eq hop hrs hne).symm.trans hholds)
  · have hholds := List.all_eq_true.1 (Bool.and_eq_true_iff.1 hsame).2 _ hop
    exact .inl ((h.sound_withoutRules.holdsBy_eq hmem hrs.symm (hrs ▸ hne)).symm.trans hholds)

theorem eitherWay_of_listSameBy {slots : List (Slot Instruction)}
    (h : EitherWay (Slot.listSameBy resources eq) (unruled slots) slots) :
    ∀ slot ∈ slots,
      EitherWay (Slot.sameBy resources eq) (slot.mapOperations withoutRules) slot := by
  have hto := Slot.listSameBy_map resources eq (Slot.mapOperations withoutRules) id slots
  have hof := Slot.listSameBy_map resources eq id (Slot.mapOperations withoutRules) slots
  rw [List.map_id, ← unruled_eq_map] at hto hof
  rcases h with h | h
  · exact fun slot hslot => .inl (List.all_eq_true.1 (hto.symm.trans h) slot hslot)
  · exact fun slot hslot => .inr (List.all_eq_true.1 (hof.symm.trans h) slot hslot)

/-- If an instruction equals itself without rules, its body has none and equals itself so, too. -/
theorem body_of_sameTo {op : Instruction} {b : Body Instruction} (hb : op.body = some b)
    {levels : Nat} (h : EitherWay (sameTo levels) op.withoutRules op) : b.ruleSerial = none ∧
      ∃ n, EitherWay (Slot.listSameBy resources (sameTo n)) (unruled b.slots) b.slots := by
  cases levels with
  | zero => simp [EitherWay, sameTo] at h
  | succ n =>
    simp only [EitherWay, sameTo, withoutRules, carry_eq, hb, Option.map_some, sameBody,
      Bool.and_eq_true, beq_iff_eq] at h
    rcases h with ⟨_, hrule, hslots⟩ | ⟨_, hrule, hslots⟩
    · exact ⟨hrule.symm, n, .inl hslots⟩
    · exact ⟨hrule, n, .inr hslots⟩

/-- Slots that equal themselves without rules have no rules. The induction is on the nesting: the
rules of bodies are compared level by level, and the way round does not matter. -/
theorem ruleless_of_listSameBy {slots : List (Slot Instruction)} (hloc : Throughout Locatable slots)
    (heq : ∀ a b, eq a b = true → ∃ levels, sameTo levels a b = true)
    (h : EitherWay (Slot.listSameBy resources eq) (unruled slots) slots) :
    Throughout Ruleless slots := by
  induction hloc generalizing eq with
  | @intro slots here inner ih =>
    have hbody : ∀ slot ∈ slots, ∀ op ∈ slot.operations, ∀ b, op.body = some b →
        b.ruleSerial = none ∧ Throughout Ruleless b.slots := by
      intro slot hslot op hop b hb
      have hsame := eitherWay_of_listSameBy h slot hslot
      have hop' : ∃ levels, EitherWay (sameTo levels) op.withoutRules op := by
        rcases (here slot hslot).eitherWay_of_sameBy hsame hop with h | h
        · exact (heq _ _ h).imp fun _ => .inl
        · exact (heq _ _ h).imp fun _ => .inr
      obtain ⟨levels, hlevels⟩ := hop'
      obtain ⟨hrule, n, hinner⟩ := body_of_sameTo hb hlevels
      have hslots : body? op = some b.slots := body?_eq.2 ⟨b.ruleSerial, hb⟩
      exact ⟨hrule, ih slot hslot op hop b.slots hslots (fun _ _ h => ⟨n, h⟩) hinner⟩
    refine .intro (fun slot hslot op hop b hb => (hbody slot hslot op hop b hb).1) ?_
    intro slot hslot op hop body h
    obtain ⟨rule, hb⟩ := body?_eq.1 h
    exact (hbody slot hslot op hop _ hb).2

end Instruction

open Instruction

/-- **Forth and back, a renaming loses the rules of bodies.** A renaming that is undone by another
one succeeds, and so does that one afterwards; together they give the schedule without the rules of
the bodies in it. Where no body has a rule the result equals the schedule, and where all operations
act on something it equals the schedule only then. -/
theorem rename_back {s : Schedule Instruction} (hs : Throughout Slot.Sound s.slots)
    {f g : Resource → Resource} (hgf : ∀ r, g (f r) = r) :
    ∃ s' s'', s.rename f = .ok s' ∧ s'.rename g = .ok s'' ∧
      s''.slots = unruled s.slots ∧ s''.acceptance = s.acceptance ∧
      (Throughout Ruleless s.slots → (s'' == s) = true) ∧
      (Throughout (fun slot => ∀ op ∈ slot.operations, op.resources ≠ []) s.slots →
        (s'' == s) = true → Throughout Ruleless s.slots) := by
  have hf : Function.Injective f := Function.LeftInverse.injective hgf
  have hgf' : g ∘ f = id := funext hgf
  have hforth : Throughout (Slot.Apart f) s.slots := hs.mono fun _ h => h.apart hf
  have hback : Throughout (Slot.Apart g) (carrySlots f (fun _ => none) s.slots) := by
    refine throughout_carrySlots hs fun slot hslot _ => apart_carry_iff.2 ?_
    exact hslot.apart (hgf' ▸ Function.injective_id)
  have hslots : carrySlots g (fun _ => none) (carrySlots f (fun _ => none) s.slots)
      = unruled s.slots := by
    rw [carrySlots_carrySlots, hgf']
    rfl
  refine ⟨_, ⟨unruled s.slots, s.acceptance⟩, Schedule.rename_eq_ok hforth, ?_, rfl, rfl, ?_, ?_⟩
  · rw [Schedule.rename_eq_ok hback, hslots]
  · intro hruleless
    rw [unruled_of_ruleless hs hruleless]
    exact Schedule.same_self hs
  · intro hacts hsame
    have hloc : Throughout Locatable s.slots := (hs.and hacts).mono fun _ h => ⟨h.1, h.2⟩
    have hlist := (Slot.listSameBy_eq_beq _ _).trans (Bool.and_eq_true_iff.1 hsame).2
    exact ruleless_of_listSameBy hloc (fun _ _ h => ⟨_, h⟩) (.inl hlist)

/-- A body in a body without rules, and a renaming under which its resources change their order. -/
theorem rename_back_two_deep :
    let a : Instruction := { name := "a", resources := [.line 1] }
    let b : Instruction := { name := "b", resources := [.line 2] }
    let sub := nesting "sub" [[a, b]]
    let s := Schedule.ofSlots [slotOf [nesting "out" [[sub]]]]
    let f : Resource → Resource := fun r => match r with
      | .line i => .line (-i)
      | r => r
    Throughout Slot.Sound s.slots ∧ (∀ r, f (f r) = r) ∧ ∃ s' s'', s.rename f = .ok s' ∧
      s'.rename f = .ok s'' ∧ s''.slots = unruled s.slots ∧ (s'' == s) = true := by
  intro a b sub s f
  have hs : s.Sound := List.forall_mem_singleton.2 (Slot.sound_ofApart (by decide))
  have hsub : sub.Made := by
    refine .nesting "sub" (by decide) (List.forall_mem_cons.2 ⟨.plain "a" [.line 1], ?_⟩)
    exact List.forall_mem_singleton.2 (.plain "b" [.line 2])
  have hmade : ∀ op ∈ s.operations, op.Made :=
    List.forall_mem_singleton.2 (.nesting "out" (by decide) (List.forall_mem_singleton.2 hsub))
  have hff : ∀ r, f (f r) = r := by
    intro r
    cases r <;> simp [f]
  have hplain : Throughout Ruleless [slotOf [a, b]] := by
    refine .intro (List.forall_mem_singleton.2 ?_) (List.forall_mem_singleton.2 ?_)
    · exact List.forall_mem_cons.2 ⟨nofun, List.forall_mem_singleton.2 nofun⟩
    · exact List.forall_mem_cons.2 ⟨nofun, List.forall_mem_singleton.2 nofun⟩
  have hruleless : Throughout Ruleless s.slots :=
    ruleless_nesting "out" (ruleless_nesting "sub" hplain)
  have hdeep := throughout_sound_of_made hs hmade
  obtain ⟨s', s'', hforth, hback, hslots, -, hsame, -⟩ := rename_back hdeep hff
  exact ⟨hdeep, hff, s', s'', hforth, hback, hslots, hsame hruleless⟩

/-- A body under a rule is no longer under it after one place forth and back. -/
theorem rename_back_unequal :
    let a : Instruction := { name := "a", resources := [.line 0] }
    let s := Schedule.ofSlots [slotOf [.wrap "sub" ⟨[slotOf [a]], some 0⟩]]
    let f : Resource → Resource := fun r => match r with
      | .line i => .line (i + 1)
      | r => r
    let g : Resource → Resource := fun r => match r with
      | .line i => .line (i - 1)
      | r => r
    Throughout Slot.Sound s.slots ∧ (∀ r, g (f r) = r) ∧
      ¬∃ s' s'', s.rename f = .ok s' ∧ s'.rename g = .ok s'' ∧ (s'' == s) = true := by
  intro a s f g
  have hs : s.Sound := List.forall_mem_singleton.2 (Slot.sound_ofApart (by decide))
  have hmade : ∀ op ∈ s.operations, op.Made := by
    refine List.forall_mem_singleton.2 (.wrap "sub" ?_ ?_)
    · exact List.forall_mem_singleton.2 (Slot.sound_ofApart (by decide))
    · exact List.forall_mem_singleton.2 (List.forall_mem_singleton.2 (.plain "a" [.line 0]))
  have hgf : ∀ r, g (f r) = r := by
    intro r
    cases r <;> simp [f, g]
  have hrun : (s.rename f >>= fun s' => s'.rename g >>= fun s'' => .ok (s'' == s)) = .ok false := by
    decide +kernel
  refine ⟨throughout_sound_of_made hs hmade, hgf, ?_⟩
  rintro ⟨s', s'', hforth, hback, hsame⟩
  obtain ⟨t, ht, hrun⟩ := bind_eq_ok_iff.1 hrun
  obtain ⟨t', ht', hrun⟩ := bind_eq_ok_iff.1 hrun
  obtain rfl := Except.ok.inj (hforth.symm.trans ht)
  obtain rfl := Except.ok.inj (hback.symm.trans ht')
  rw [hsame] at hrun
  cases hrun

end Timetable
