import Timetable.Proofs.Schedule.Refusal
import Timetable.Proofs.Schedule.Room

/-!
# Landing behind a frontier

Behind a frontier each operation is given a slot before any slot is changed. The slots that the
operations are given are right only once room has been made for them. The answer is the new
frontier: just behind the operations on their resources, and moved along with the slots on the
others.

* `Landings`: what the slots and the new frontier have to do with the old frontier.
* `Schedule.exists_pushEach`: operations join the slots that they have been given.
* `InsertedAround`, `InsertedBehind`: what an edit around a slot has done, and what it has done when
  nothing before that slot was touched.
* `Advanced`: the new frontier is right for the edited schedule.
* `Landed`: all of this, of one edit.
* `Schedule.insertLanded_cases`: the edit succeeds, or has come to a number that is too large.
* `Schedule.landed_insertAtFrontier`: what a request that succeeds has done.
-/

namespace Timetable

variable {ω : Type} [Operation ω]

/-! ### The slots of the operations -/

/-- Each operation of `ops` has been given a slot at or after `start`, behind `frontier` and before
`final`, and operations on one resource stand in order. -/
structure Landings (start : Nat) (frontier : Frontier) (ops : List ω) (landed : List (Nat × ω))
    (final : Frontier) : Prop where
  inserted : landed.map Prod.snd = ops
  start_le : ∀ e ∈ landed, start ≤ e.1
  frontier_le : ∀ e ∈ landed, ∀ r ∈ resources e.2, frontier.getD r 0 ≤ e.1
  lt_final : ∀ e ∈ landed, ∀ r ∈ resources e.2, e.1 < final.getD r 0
  /-- The frontier never moves back. -/
  grows : ∀ r, frontier.getD r 0 ≤ final.getD r 0
  /-- It ends just behind the last operation on a resource. -/
  last : ∀ e ∈ landed, ∀ r ∈ resources e.2, ∃ l ∈ landed, r ∈ resources l.2 ∧
    final.get? r = some (l.1 + 1)
  /-- Where there is no operation it stays. -/
  rest : ∀ r, (∀ e ∈ landed, r ∉ resources e.2) → final.get? r = frontier.get? r
  ordered : landed.Pairwise fun a b => SharesResource a.2 b.2 → a.1 < b.1

namespace Schedule

theorem get?_raise (rs : List Resource) (frontier : Frontier) (b : Nat) (j : Resource) :
    (rs.foldl (fun f r => f.insert r (max (f.getD r 0) b)) frontier).get? j
      = if j ∈ rs then some (max (frontier.getD j 0) b) else frontier.get? j := by
  induction rs generalizing frontier with
  | nil => simp
  | cons r rs ih =>
    rw [List.foldl_cons, ih, SortedMap.getD_insert, SortedMap.get?_insert]
    by_cases hr : r = j
    · subst hr
      simp
    · simp [hr, Ne.symm hr]

/-- A landing that the frontier has not passed takes the frontier of its resources along. -/
theorem get?_raise_past {rs : List Resource} {frontier : Frontier} {landing : Nat}
    (h : ∀ r ∈ rs, frontier.getD r 0 ≤ landing) (j : Resource) :
    (rs.foldl (fun f r => f.insert r (max (f.getD r 0) (landing + 1))) frontier).get? j
      = if j ∈ rs then some (landing + 1) else frontier.get? j := by
  rw [get?_raise]
  split
  · rename_i hj
    rw [Nat.max_eq_right (Nat.le_succ_of_le (h j hj))]
  · rfl

theorem landings_landings (start : Nat) (ops : List ω) (frontier : Frontier) :
    Landings start frontier ops (landings start ops frontier).1
      (landings start ops frontier).2 := by
  induction ops generalizing frontier with
  | nil =>
    refine ⟨rfl, ?_, ?_, ?_, fun r => Nat.le_refl _, ?_, fun r _ => rfl, List.Pairwise.nil⟩
    all_goals exact fun e he => nomatch he
  | cons op ops ih =>
    rw [landings]
    dsimp only
    generalize hland : (resources op).foldl (fun at_ r => max at_ (frontier.getD r 0)) start
      = landing
    generalize hmove : (resources op).foldl
      (fun f r => f.insert r (max (f.getD r 0) (landing + 1))) frontier = moved
    obtain ⟨hstart, hreach⟩ := (Ordered.foldl_max_le_iff _).1 (Nat.le_of_eq hland)
    have hraise : ∀ r, moved.get? r =
        if r ∈ resources op then some (landing + 1) else frontier.get? r := by
      rw [← hmove]
      exact get?_raise_past hreach
    have hpast : ∀ r ∈ resources op, moved.getD r 0 = landing + 1 := by
      intro r hr
      rw [SortedMap.getD, hraise, if_pos hr]
      rfl
    have hgrow : ∀ r, frontier.getD r 0 ≤ moved.getD r 0 := by
      intro r
      by_cases hr : r ∈ resources op
      · have hle := hreach r hr
        rw [hpast r hr]
        omega
      · rw [SortedMap.getD, SortedMap.getD, hraise, if_neg hr]
    have hrest := ih moved
    have hkept : ∀ r, (∀ e ∈ (landings start ops moved).1, r ∉ resources e.2) →
        (landings start ops moved).2.get? r =
          if r ∈ resources op then some (landing + 1) else frontier.get? r :=
      fun r hr => (hrest.rest r hr).trans (hraise r)
    refine ⟨?_, ?_, ?_, ?_, fun r => Nat.le_trans (hgrow r) (hrest.grows r), ?_, ?_, ?_⟩
    · rw [List.map_cons, hrest.inserted]
    · exact List.forall_mem_cons.2 ⟨hstart, hrest.start_le⟩
    · refine List.forall_mem_cons.2 ⟨hreach, fun e he r hr => ?_⟩
      exact Nat.le_trans (hgrow r) (hrest.frontier_le e he r hr)
    · refine List.forall_mem_cons.2 ⟨fun r hr => ?_, hrest.lt_final⟩
      exact Nat.lt_of_lt_of_le (Nat.lt_of_succ_le (hpast r hr).ge) (hrest.grows r)
    · -- The last operation on the resource is a later one, if there is one.
      intro e he r hr
      by_cases hlater : ∃ l ∈ (landings start ops moved).1, r ∈ resources l.2
      · obtain ⟨l, hl, hrl⟩ := hlater
        obtain ⟨l, hl, hlast⟩ := hrest.last l hl r hrl
        exact ⟨l, List.mem_cons_of_mem _ hl, hlast⟩
      · push Not at hlater
        rcases List.mem_cons.1 he with rfl | he
        · exact ⟨_, List.mem_cons_self, hr, (hkept r hlater).trans (if_pos hr)⟩
        · exact absurd hr (hlater e he)
    · intro r hr
      obtain ⟨hop, hlater⟩ := List.forall_mem_cons.1 hr
      exact (hkept r hlater).trans (if_neg hop)
    · refine List.pairwise_cons.2 ⟨fun e he hshare => ?_, hrest.ordered⟩
      obtain ⟨r, hr, hre⟩ := hshare
      exact Nat.lt_of_lt_of_le (Nat.lt_of_succ_le (hpast r hr).ge) (hrest.frontier_le e he r hre)

/-- Where the frontier of their resources has not passed `start`, operations land at most as many
slots behind it as there are of them. -/
theorem landings_lt {start k : Nat} {ops : List ω} {frontier : Frontier}
    (h : ∀ op ∈ ops, ∀ r ∈ resources op, frontier.getD r 0 ≤ start + k) :
    ∀ e ∈ (landings start ops frontier).1, e.1 < start + k + ops.length := by
  induction ops generalizing frontier k with
  | nil => exact fun e he => nomatch he
  | cons op ops ih =>
    obtain ⟨hop, hops⟩ := List.forall_mem_cons.1 h
    rw [landings]
    dsimp only
    generalize hland : (resources op).foldl (fun at_ r => max at_ (frontier.getD r 0)) start
      = landing
    have hreach := ((Ordered.foldl_max_le_iff _).1 (Nat.le_of_eq hland)).2
    have hle : landing ≤ start + k :=
      hland ▸ (Ordered.foldl_max_le_iff _).2 ⟨Nat.le_add_right start k, hop⟩
    refine List.forall_mem_cons.2 ⟨Nat.lt_of_le_of_lt hle (by simp), ?_⟩
    rw [List.length_cons, Nat.add_comm ops.length, ← Nat.add_assoc, Nat.add_assoc start]
    refine ih fun later hlater r hr => ?_
    rw [SortedMap.getD, get?_raise_past hreach]
    split
    · exact Nat.succ_le_succ hle
    · exact Nat.le_succ_of_le (hops later hlater r hr)

/-! ### The edit -/

theorem mem_touchedBy {ops : List ω} {r : Resource} :
    r ∈ (touchedBy ops).toList ↔ ∃ op ∈ ops, r ∈ resources op :=
  SortedSet.mem_ofList.trans List.mem_flatMap

/-- Operations that stand in order on every resource join the slots that they have been given, where
nothing shares their resources. -/
theorem exists_pushEach {landed : List (Nat × ω)} {s : Schedule ω} (hs : s.Sound)
    (hlen : ∀ e ∈ landed, e.1 < s.length) (hnd : ∀ e ∈ landed, (resources e.2).Nodup)
    (hfree : ∀ e ∈ landed, s.Untouched e.2 e.1)
    (hordered : landed.Pairwise fun a b => SharesResource a.2 b.2 → a.1 < b.1) :
    ∃ s', s.pushEach landed = .ok s' ∧ s'.Sound ∧ Layout s.slots id landed s'.slots := by
  induction landed generalizing s with
  | nil => exact ⟨s, rfl, hs, Layout.refl s.slots⟩
  | cons e landed ih =>
    rw [List.forall_mem_cons] at hlen hnd hfree
    obtain ⟨hhead, hordered⟩ := List.pairwise_cons.1 hordered
    obtain ⟨mid, hpush, -, hmid, hsound, hlayout⟩ := exists_pushAt hs hlen.1 hnd.1 hfree.1
    have hfree' : ∀ f ∈ landed, mid.Untouched f.2 f.1 := by
      intro f hf a ha hshare
      rw [hlayout.content_of_id, List.mem_append, landedIn_singleton] at ha
      rcases ha with ha | ha
      · exact hfree.2 f hf a ha hshare
      · split at ha
        · rename_i heq
          rw [List.mem_singleton.1 ha] at hshare
          exact Nat.ne_of_lt (hhead f hf hshare) heq
        · cases ha
    obtain ⟨s', hrest, hsound', hlayout'⟩ := ih hsound (hmid ▸ hlen.2) hnd.2 hfree' hordered
    refine ⟨s', ?_, hsound', ?_⟩
    · rw [pushEach, hpush]
      exact hrest
    · have hboth := hlayout.trans hlayout'
      rwa [relocate_of_fixed fun _ _ => rfl] at hboth

end Schedule

/-- The schedule `s'` is the schedule `s` with operations inserted around the slot `start`, such that
operations on one resource are in order. -/
structure InsertedAround (s : Schedule ω) (start : Nat) (ops : List ω) (moved : Nat → Nat)
    (landed : List (Nat × ω)) (s' : Schedule ω) : Prop where
  layout : Layout s.slots moved landed s'.slots
  /-- What has landed are the operations, in their order. -/
  inserted : landed.map Prod.snd = ops
  /-- Of two inserted operations on one resource the first one is in the earlier slot. -/
  ordered : landed.Pairwise fun a b => SharesResource a.2 b.2 → a.1 < b.1
  /-- An inserted operation is behind those on its resources that were before `start`. -/
  behind : ∀ e ∈ landed, ∀ i < start, ∀ op ∈ operationsAt s.slots i,
    SharesResource op e.2 → moved i < e.1
  /-- An inserted operation is before those on its resources that were at `start` or later. -/
  ahead : ∀ e ∈ landed, ∀ i, start ≤ i → ∀ op ∈ operationsAt s.slots i,
    SharesResource op e.2 → e.1 < moved i

/-- The operations have been inserted around the slot `start`, and all before it is as it was. -/
structure InsertedBehind (s : Schedule ω) (start : Nat) (ops : List ω) (moved : Nat → Nat)
    (landed : List (Nat × ω)) (s' : Schedule ω) : Prop
    extends InsertedAround s start ops moved landed s' where
  fixed : ∀ i < start, i < s.length → moved i = i
  start_le : ∀ e ∈ landed, start ≤ e.1

/-- The frontier `final` is right for the edited schedule: it is just behind the operations that
have been inserted, and on other resources it cuts the schedule where `frontier` did. -/
structure Advanced (ops : List ω) (frontier final : Frontier) (moved : Nat → Nat)
    (landed : List (Nat × ω)) : Prop where
  mem_keys_iff : ∀ r, r ∈ final.keys ↔ r ∈ frontier.keys ∨ ∃ op ∈ ops, r ∈ resources op
  /-- Of the operations on a resource the last one is just before the frontier. -/
  touched : ∀ op ∈ ops, ∀ r ∈ resources op, ∃ last ∈ landed, r ∈ resources last.2 ∧
    final.get? r = some (last.1 + 1) ∧ ∀ e ∈ landed, r ∈ resources e.2 → e.1 ≤ last.1
  /-- Where nothing has been inserted the same old slots are before the frontier. -/
  untouched : ∀ r, (∀ op ∈ ops, r ∉ resources op) → ∀ v, frontier.get? r = some v →
    ∃ v', final.get? r = some v' ∧ v ≤ v' ∧ ∀ i, i < v ↔ moved i < v'

namespace Landings

variable {start : Nat} {ops : List ω} {frontier early : Frontier} {landed : List (Nat × ω)}

theorem exists_last (h : Landings start frontier ops landed early) {op : ω} (hop : op ∈ ops)
    {r : Resource} (hr : r ∈ resources op) :
    ∃ l ∈ landed, r ∈ resources l.2 ∧ early.get? r = some (l.1 + 1) := by
  rw [← h.inserted] at hop
  obtain ⟨e, he, rfl⟩ := List.mem_map.1 hop
  exact h.last e he r hr

theorem get?_of_untouched (h : Landings start frontier ops landed early) {r : Resource}
    (hr : ∀ op ∈ ops, r ∉ resources op) : early.get? r = frontier.get? r :=
  h.rest r fun e he => hr e.2 (h.inserted ▸ List.mem_map_of_mem he)

/-- The frontier behind the operations becomes that of the edited schedule when the values on other
resources are moved along with the slots. -/
theorem advanced (h : Landings start frontier ops landed early) {place n : Nat} {final : Frontier}
    (hfinal : ∀ r, final.get? r = (early.get? r).map fun v =>
      if r ∈ (Schedule.touchedBy ops).toList then v else Layout.cut place n v) :
    Advanced ops frontier final (Layout.spread place n) landed where
  mem_keys_iff r := by
    have hkeys : r ∈ final.keys ↔ ∃ v, early.get? r = some v := by
      rw [SortedMap.mem_keys_iff, hfinal]
      cases early.get? r <;> simp
    rw [hkeys, SortedMap.mem_keys_iff]
    by_cases htouched : ∃ op ∈ ops, r ∈ resources op
    · obtain ⟨op, hop, hr⟩ := htouched
      obtain ⟨l, -, -, hlast⟩ := h.exists_last hop hr
      exact iff_of_true ⟨_, hlast⟩ (.inr ⟨op, hop, hr⟩)
    · rw [or_iff_left htouched]
      push Not at htouched
      rw [h.get?_of_untouched htouched]
  touched op hop r hr := by
    obtain ⟨l, hl, hrl, hlast⟩ := h.exists_last hop hr
    refine ⟨l, hl, hrl, ?_, fun e he hre => ?_⟩
    · rw [hfinal, hlast, Option.map_some, if_pos (Schedule.mem_touchedBy.2 ⟨op, hop, hr⟩)]
    · have hlt := h.lt_final e he r hre
      rw [SortedMap.getD, hlast] at hlt
      exact Nat.le_of_lt_succ hlt
  untouched r hr v hv := by
    refine ⟨Layout.cut place n v, ?_, Layout.le_cut place n v, fun i => ?_⟩
    · have hnot : r ∉ (Schedule.touchedBy ops).toList := by
        rw [Schedule.mem_touchedBy]
        push Not
        exact hr
      rw [hfinal, h.get?_of_untouched hr, hv, Option.map_some, if_neg hnot]
    · exact Layout.spread_lt_cut_iff.symm

end Landings

/-- What an insertion behind a frontier has done: where the operations stand, and that the frontier
`exact` is right for the edited schedule. What the build answers is `final`. -/
structure Landed (build : Build) (s : Schedule ω) (start : Nat) (ops : List ω)
    (frontier exact final : Frontier) (moved : Nat → Nat) (landed : List (Nat × ω))
    (s' : Schedule ω) : Prop where
  sound : s'.Sound
  behind : InsertedBehind s start ops moved landed s'
  advanced : Advanced ops frontier exact moved landed
  settled : Settled build exact final
  /-- No value has moved further than all operations together reach. -/
  exact_le : ∀ r v, exact.get? r = some v → v ≤ frontier.getD r 0 + (start + ops.length)

/-- The numbers of a request are too large: there can be no slots for its operations, or a checked
build comes to a sum that is no word. -/
def TooLarge (build : Build) (start : Nat) (ops : List ω) (frontier : Frontier) : Prop :=
  2 ^ 63 ≤ start + ops.length ∨ build = .checked ∧ ∃ r v, frontier.get? r = some v ∧
    (∀ op ∈ ops, r ∉ resources op) ∧ 2 ^ 64 ≤ v + (start + ops.length)

namespace Schedule

section Edit

variable {s : Schedule ω} {ops : List ω} {start : Nat} {frontier : Frontier}

/-- Where room has been made the operations go in: they stand in order on every resource, and the
frontier is right for the edited schedule. -/
theorem exists_edited (hnd : ∀ op ∈ ops, (resources op).Nodup) {place n : Nat}
    {room : Schedule ω} {exact : Frontier}
    (hroom : s.Room (touchedBy ops).toList start (landings start ops frontier).2 place n room exact)
    {needed : Nat} (hneeded : ∀ e ∈ (landings start ops frontier).1, e.1 < needed) :
    ∃ s', (room.padTo needed).pushEach (landings start ops frontier).1 = .ok s' ∧ s'.Sound ∧
      InsertedBehind s start ops (Layout.spread place n) (landings start ops frontier).1 s' ∧
      Advanced ops frontier exact (Layout.spread place n) (landings start ops frontier).1 := by
  have hland := landings_landings start ops frontier
  generalize landings start ops frontier = early at *
  obtain ⟨landed, early⟩ := early
  dsimp only at *
  have hadvanced := hland.advanced hroom.get?_exact
  have hfixed := hroom.fixed
  have hpast := hroom.past
  have hopen := hroom.layout
  generalize Layout.spread place n = moved at hopen hfixed hpast hadvanced ⊢
  have hop : ∀ e ∈ landed, e.2 ∈ ops := fun e he => hland.inserted ▸ List.mem_map_of_mem he
  have hbehind : ∀ e ∈ landed, ∀ i < start, ∀ op ∈ operationsAt s.slots i,
      SharesResource op e.2 → moved i < e.1 := by
    intro e he i hi op hmem _
    rw [hfixed i hi (lt_length_of_mem_operationsAt hmem)]
    exact Nat.lt_of_lt_of_le hi (hland.start_le e he)
  have hahead : ∀ e ∈ landed, ∀ i, start ≤ i → ∀ op ∈ operationsAt s.slots i,
      SharesResource op e.2 → e.1 < moved i := by
    intro e he i hi op hmem hshare
    obtain ⟨r, hr, hre⟩ := hshare
    have htouched := mem_touchedBy.2 ⟨e.2, hop e he, hre⟩
    exact Nat.lt_of_lt_of_le (hland.lt_final e he r hre) (hpast i op r hi hmem hr htouched)
  have hfree : ∀ e ∈ landed, room.Untouched e.2 e.1 := by
    intro e he a ha hshare
    by_cases hmoved : ∃ i < s.slots.length, moved i = e.1
    · obtain ⟨i, hi, hie⟩ := hmoved
      rw [← hie, hopen.content_moved i hi, landedIn_nil, List.append_nil] at ha
      rcases Nat.lt_or_ge i start with h | h
      · exact Nat.ne_of_lt (hbehind e he i h a ha hshare) hie
      · exact Nat.ne_of_gt (hahead e he i h a ha hshare) hie
    · push Not at hmoved
      rw [hopen.content_fresh e.1 hmoved] at ha
      cases ha
  have hlong : ∀ e ∈ landed, e.1 < (room.padTo needed).length := by
    intro e he
    have hlt := hneeded e he
    rw [length_padTo]
    omega
  obtain ⟨s', hpush, hsound, hpushed⟩ := exists_pushEach (hroom.sound.padTo needed) hlong
    (fun e he => hnd e.2 (hop e he)) (fun e he => (hfree e he).padTo needed) hland.ordered
  exact ⟨s', hpush, hsound, ⟨⟨(hopen.trans (room.layout_padTo needed)).trans hpushed,
    hland.inserted, hland.ordered, hbehind, hahead⟩, hfixed, hland.start_le⟩, hadvanced⟩

/-- Where the frontier of their resources has not passed `start`, operations take it no further than
all of them together reach. -/
theorem getD_landings_le (hpassed : ∀ op ∈ ops, ∀ r ∈ resources op, frontier.getD r 0 ≤ start)
    {op : ω} (hop : op ∈ ops) {r : Resource} (hr : r ∈ resources op) :
    (landings start ops frontier).2.getD r 0 ≤ start + ops.length := by
  obtain ⟨l, hl, -, hlast⟩ := (landings_landings start ops frontier).exists_last hop hr
  rw [SortedMap.getD, hlast]
  exact landings_lt (k := 0) hpassed l hl

/-- Operations that name no resource twice, on resources whose frontier has not passed `start`: the
edit succeeds, or has come to a number that is too large. -/
theorem insertLanded_cases (hs : s.Sound) (hnd : ∀ op ∈ ops, (resources op).Nodup)
    (hpassed : ∀ op ∈ ops, ∀ r ∈ resources op, frontier.getD r 0 ≤ start) (build : Build) :
    (∃ s' exact final moved, s.insertLanded build ops start frontier = .ok (s', final) ∧
      Landed build s start ops frontier exact final moved (landings start ops frontier).1 s') ∨
    s.insertLanded build ops start frontier = .error .overflow ∧
      TooLarge build start ops frontier := by
  have hlast : ∀ e ∈ (landings start ops frontier).1, e.1 < start + ops.length :=
    landings_lt (k := 0) hpassed
  have hshort : shortfall (landings start ops frontier).2
      (nextUses s.slots (touchedBy ops).toList start) ≤ start + ops.length := by
    refine shortfall_le fun r v hv => ?_
    rw [get?_nextUses] at hv
    split at hv
    · rename_i hr
      obtain ⟨op, hop, hrop⟩ := mem_touchedBy.1 hr
      exact getD_landings_le hpassed hop hrop
    · cases hv
  have hkept : ∀ {r}, r ∉ (touchedBy ops).toList →
      (landings start ops frontier).2.get? r = frontier.get? r := by
    intro r hr
    exact (landings_landings start ops frontier).get?_of_untouched fun op hop hrop =>
      hr (mem_touchedBy.2 ⟨op, hop, hrop⟩)
  rw [insertLanded]
  dsimp only
  generalize hneeded : (landings start ops frontier).1.foldl (fun n e => max n (e.1 + 1)) 0 = needed
  split
  · rcases exists_room hs (touchedBy ops).toList start (landings start ops frontier).2 build with
      ⟨place, n, room, exact, final, hmade, hn, hroom, hsettled⟩ |
      ⟨hstop, hbuild, r, v, hv, hr, hsum⟩
    · obtain ⟨s', hpush, hsound, hbehind, hadvanced⟩ := exists_edited hnd hroom
        ((Ordered.foldl_max_le_iff _).1 (Nat.le_of_eq hneeded)).2
      refine .inl ⟨s', exact, final, _, ?_, hsound, hbehind, hadvanced, hsettled, fun r v hv => ?_⟩
      · rw [hmade]
        show (room.padTo needed).pushEach _ >>= _ = _
        rw [hpush]
        rfl
      · rw [hroom.get?_exact] at hv
        obtain ⟨w, hw, rfl⟩ := Option.map_eq_some_iff.1 hv
        split
        · rename_i hr
          obtain ⟨op, hop, hrop⟩ := mem_touchedBy.1 hr
          have hle := getD_landings_le hpassed hop hrop
          rw [SortedMap.getD, hw] at hle
          exact Nat.le_trans hle (Nat.le_add_left _ _)
        · rename_i hr
          rw [hkept hr] at hw
          rw [SortedMap.getD, hw, Option.getD_some, Layout.cut]
          split <;> omega
    · refine .inr ⟨by rw [hstop]; rfl, .inr ⟨hbuild, r, v, hkept hr ▸ hv, fun op hop hrop => ?_, ?_⟩⟩
      · exact hr (mem_touchedBy.2 ⟨op, hop, hrop⟩)
      · omega
  · rename_i hlimit
    refine .inr ⟨rfl, .inl (Nat.le_trans (Nat.le_of_not_lt hlimit) ?_)⟩
    rw [← hneeded]
    exact (Ordered.foldl_max_le_iff _).2 ⟨Nat.zero_le _, hlast⟩

end Edit

/-! ### The whole request -/

omit [Operation ω] in
/-- What is committed is the edited copy. -/
theorem commit_eq_ok {α : Type} {s : Schedule ω} {edit : Except Fault (Schedule ω × α)} {a : α}
    (h : (s.commit edit).answer = .ok a) :
    ∃ scratch, edit = .ok (scratch, a) ∧ (s.commit edit).left = { s with slots := scratch.slots } := by
  cases edit with
  | error e => cases h
  | ok done =>
    cases h
    exact ⟨done.1, rfl, rfl⟩

omit [Operation ω] in
theorem commit_left_of_error {α : Type} {s : Schedule ω} {edit : Except Fault (Schedule ω × α)}
    {e : Fault} (h : (s.commit edit).answer = .error e) : (s.commit edit).left = s := by
  cases edit with
  | ok done => cases h
  | error f => rfl

theorem checkFrontier_eq_ok_iff {frontier : Frontier} {start : Nat} {rs : List Resource} :
    checkFrontier frontier start rs = .ok () ↔ ∀ r ∈ rs, frontier.getD r 0 ≤ start := by
  induction rs with
  | nil => simp [checkFrontier]
  | cons r rs ih =>
    rw [checkFrontier, List.forall_mem_cons, ← ih]
    split
    · rename_i h
      simp [Nat.not_le.2 h]
    · rename_i h
      simp [Nat.not_lt.1 h]

section Request

variable {build : Build} {s : Schedule ω} {bundle : Bundle ω} {start : Nat}
  {frontier final : Frontier}

theorem insertAtFrontier_of_nil (h : bundle.operations = []) :
    s.insertAtFrontier build bundle start frontier = ⟨s, .ok frontier⟩ := by
  rw [insertAtFrontier, h]
  rfl

/-- Operations that pass both checks go in. -/
theorem insertAtFrontier_of_checks (hne : bundle.operations ≠ [])
    (hcheck : checkOperations bundle.operations = .ok ())
    (hfrontier : checkFrontier frontier start (touchedBy bundle.operations).toList = .ok ()) :
    s.insertAtFrontier build bundle start frontier
      = s.commit (s.insertLanded build bundle.operations start frontier) := by
  rw [insertAtFrontier, if_neg (by simpa using hne), hcheck, hfrontier]
  rfl

theorem checkFrontier_touchedBy_iff {ops : List ω} :
    checkFrontier frontier start (touchedBy ops).toList = .ok () ↔
      ∀ op ∈ ops, ∀ r ∈ resources op, frontier.getD r 0 ≤ start := by
  rw [checkFrontier_eq_ok_iff]
  constructor
  · exact fun h op hop r hr => h r (mem_touchedBy.2 ⟨op, hop, hr⟩)
  · intro h r hr
    obtain ⟨op, hop, hrop⟩ := mem_touchedBy.1 hr
    exact h op hop r hrop

/-- A request that succeeds has passed both checks: its operations are fit, and the frontier of their
resources has not passed `start`. -/
theorem fit_of_insertAtFrontier
    (h : (s.insertAtFrontier build bundle start frontier).answer = .ok final) :
    (∀ op ∈ bundle.operations, (resources op).Nodup ∧ nestsInItself op = false) ∧
      ∀ op ∈ bundle.operations, ∀ r ∈ resources op, frontier.getD r 0 ≤ start := by
  by_cases hnil : bundle.operations = []
  · simp [hnil]
  · rw [insertAtFrontier, if_neg (by simpa using hnil)] at h
    obtain ⟨scratch, hedit, -⟩ := commit_eq_ok h
    obtain ⟨_, hcheck, hedit⟩ := bind_eq_ok_iff.1 hedit
    obtain ⟨_, hfrontier, -⟩ := bind_eq_ok_iff.1 hedit
    refine ⟨fun op hop => ?_, checkFrontier_touchedBy_iff.1 hfrontier⟩
    exact checkOperation_eq_ok_iff.1 (checkOperations_eq_ok_iff.1 hcheck op hop)

/-- A request that passes both checks succeeds, or has come to a number that is too large. What it
leaves when it succeeds has its operations in the slots that it has computed for them. -/
theorem insertAtFrontier_cases (build : Build) (hs : s.Sound)
    (hfit : ∀ op ∈ bundle.operations, (resources op).Nodup ∧ nestsInItself op = false)
    (hpassed : ∀ op ∈ bundle.operations, ∀ r ∈ resources op, frontier.getD r 0 ≤ start) :
    (∃ exact final moved, (s.insertAtFrontier build bundle start frontier).answer = .ok final ∧
      Landed build s start bundle.operations frontier exact final moved
        (landings start bundle.operations frontier).1
        (s.insertAtFrontier build bundle start frontier).left) ∨
    (s.insertAtFrontier build bundle start frontier).answer = .error .overflow ∧
      TooLarge build start bundle.operations frontier := by
  by_cases hnil : bundle.operations = []
  · rw [insertAtFrontier_of_nil hnil, hnil, landings]
    refine .inl ⟨frontier, frontier, id, rfl, hs, ⟨⟨Layout.refl s.slots, rfl, List.Pairwise.nil,
      by simp, by simp⟩, fun _ _ _ => rfl, by simp⟩,
      ⟨by simp, by simp, fun r _ v hv => ⟨v, hv, by simp⟩⟩, .refl build frontier, fun r v hv => ?_⟩
    rw [SortedMap.getD, hv]
    exact Nat.le_add_right _ _
  · have hcheck := checkOperations_eq_ok_iff.2 fun op hop => checkOperation_eq_ok_iff.2 (hfit op hop)
    rw [insertAtFrontier_of_checks hnil hcheck (checkFrontier_touchedBy_iff.2 hpassed)]
    rcases insertLanded_cases hs (fun op hop => (hfit op hop).1) hpassed build with
      ⟨s', exact, final, moved, hins, hlanded⟩ | ⟨hstop, hlarge⟩
    · rw [hins]
      -- The committed schedule has the slots of the edited one, but is not that schedule.
      obtain ⟨⟨hlayout, hinserted, hordered, hbehind, hahead⟩, hfixed, hstart⟩ := hlanded.behind
      exact .inl ⟨exact, final, moved, rfl, hlanded.sound,
        ⟨⟨hlayout, hinserted, hordered, hbehind, hahead⟩, hfixed, hstart⟩, hlanded.advanced,
        hlanded.settled, hlanded.exact_le⟩
    · rw [hstop]
      exact .inr ⟨rfl, hlarge⟩

/-- A request that succeeds leaves its operations in the slots that it has computed for them, at or
after `start`, in order among themselves and around `start`. -/
theorem landed_insertAtFrontier (hs : s.Sound)
    (h : (s.insertAtFrontier build bundle start frontier).answer = .ok final) :
    ∃ exact moved, Landed build s start bundle.operations frontier exact final moved
      (landings start bundle.operations frontier).1
      (s.insertAtFrontier build bundle start frontier).left := by
  obtain ⟨hfit, hpassed⟩ := fit_of_insertAtFrontier h
  rcases insertAtFrontier_cases build hs hfit hpassed with
    ⟨exact, final', moved, hok, hlanded⟩ | ⟨hstop, -⟩
  · obtain rfl := Except.ok.inj (hok.symm.trans h)
    exact ⟨exact, moved, hlanded⟩
  · rw [hstop] at h
    cases h

end Request

end Schedule

end Timetable
