import Timetable.Proofs.Partition.Forest
import Timetable.Proofs.Slot.Parts
import Timetable.Schedule.Partition
import Mathlib.Logic.Relation

/-!
# Classes of linked resources

Two resources are linked when a chain of resources leads from one to the other in which neighbours
are used together by some operation. The independent resource sets are the classes of this relation.

The forest says of the places of resources what is linked so far. Operations join trees; afterwards
each resource goes to the class of its root.

* `Together`, `Linked`: the relation.
* `Tracks`: the forest has one root for the places of linked resources, and no others.
* `Classified`: the classes that have been filled so far, by their roots.
* `Components`: classes that share no resource and hold what is linked; `Components.perm`: there is
  one such family.
* `components_independentResources`: the independent resource sets are such.
-/

namespace Timetable

variable {ω : Type} [Operation ω]

def Together (ops : List ω) (r r' : Resource) : Prop :=
  ∃ op ∈ ops, r ∈ resources op ∧ r' ∈ resources op

/-- A chain of resources leads from one to the other, each used together with the next. -/
def Linked (ops : List ω) : Resource → Resource → Prop := Relation.ReflTransGen (Together ops)

/-! ### Chains -/

theorem Together.symm {ops : List ω} {r r' : Resource} (h : Together ops r r') :
    Together ops r' r := by
  obtain ⟨op, hop, hr, hr'⟩ := h
  exact ⟨op, hop, hr', hr⟩

theorem linked_nil {r r' : Resource} : Linked ([] : List ω) r r' ↔ r = r' := by
  constructor
  · intro h
    induction h with
    | refl => rfl
    | tail _ hstep _ =>
      obtain ⟨op, hop, -⟩ := hstep
      cases hop
  · intro h
    subst h
    exact .refl

namespace Linked

variable {ops : List ω} {r r' r'' : Resource}

theorem symm (h : Linked ops r r') : Linked ops r' r := by
  induction h with
  | refl => exact .refl
  | tail _ hstep ih => exact .head hstep.symm ih

/-- A resource that is linked to one in use is in use itself. -/
theorem used (h : Linked ops r r') (hr : ∃ op ∈ ops, r ∈ resources op) :
    ∃ op ∈ ops, r' ∈ resources op := by
  cases h with
  | refl => exact hr
  | tail _ hstep =>
    obtain ⟨op, hop, -, hr'⟩ := hstep
    exact ⟨op, hop, hr'⟩

theorem concat (h : Linked ops r r') (op : ω) : Linked (ops ++ [op]) r r' := by
  have hmono : ∀ a b, Together ops a b → Together (ops ++ [op]) a b := by
    intro a b hab
    obtain ⟨c, hc, hac, hbc⟩ := hab
    exact ⟨c, List.mem_append_left _ hc, hac, hbc⟩
  exact Relation.ReflTransGen.mono hmono _ _ h

end Linked

/-- One more operation links what was linked to two of its resources. -/
theorem linked_concat_iff {ops : List ω} {op : ω} {r r' : Resource} :
    Linked (ops ++ [op]) r r' ↔ Linked ops r r' ∨
      (∃ a ∈ resources op, Linked ops a r) ∧ ∃ b ∈ resources op, Linked ops b r' := by
  constructor
  · intro h
    induction h with
    | refl => exact .inl .refl
    | tail _ hstep ih =>
      obtain ⟨c, hc, hm, hr'⟩ := hstep
      rcases List.mem_append.1 hc with hc | hc
      · have hnext : Together ops _ _ := ⟨c, hc, hm, hr'⟩
        rcases ih with h | ⟨ha, b, hb, hbm⟩
        · exact .inl (h.tail hnext)
        · exact .inr ⟨ha, b, hb, hbm.tail hnext⟩
      · rw [List.mem_singleton.1 hc] at hm hr'
        rcases ih with h | ⟨ha, -⟩
        · exact .inr ⟨⟨_, hm, Linked.symm h⟩, _, hr', .refl⟩
        · exact .inr ⟨ha, _, hr', .refl⟩
  · intro h
    rcases h with h | ⟨⟨a, ha, har⟩, b, hb, hbr⟩
    · exact h.concat op
    · have hab : Together (ops ++ [op]) a b := ⟨op, List.mem_append_right _ List.mem_cons_self, ha, hb⟩
      exact ((har.concat op).symm.tail hab).trans (hbr.concat op)

/-! ### The forest -/

/-- The forest over the places of the known resources has one root for linked resources, and
different roots for others. -/
def Tracks (known : List Resource) (ops : List ω) (u : UnionFind) : Prop :=
  ∃ root, u.Rooted known.length root ∧
    ∀ {i j r r'}, known[i]? = some r → known[j]? = some r' → (root i = root j ↔ Linked ops r r')

section

variable {known : List Resource}

theorem findIdx?_eq_some_iff (hnd : known.Nodup) {r : Resource} {i : Nat} :
    known.findIdx? (· == r) = some i ↔ known[i]? = some r := by
  rw [List.findIdx?_eq_some_iff_getElem, List.getElem?_eq_some_iff]
  constructor
  · intro h
    obtain ⟨hi, heq, -⟩ := h
    exact ⟨hi, by simpa using heq⟩
  · intro h
    obtain ⟨hi, heq⟩ := h
    refine ⟨hi, by simpa using heq, fun j hj hjr => ?_⟩
    have hji : known[j] = known[i] := by rw [heq]; simpa using hjr
    exact Nat.ne_of_lt hj ((hnd.getElem_inj_iff).1 hji)

theorem tracks_ofSize (hnd : known.Nodup) :
    Tracks known ([] : List ω) (UnionFind.ofSize known.length) := by
  refine ⟨id, UnionFind.rooted_ofSize _, fun {i j r r'} hi hj => ?_⟩
  rw [linked_nil, id, id]
  constructor
  · intro h
    subst h
    exact Option.some.inj (hi.symm.trans hj)
  · intro h
    subst h
    rw [← findIdx?_eq_some_iff hnd] at hi hj
    exact Option.some.inj (hi.symm.trans hj)

/-- An operation joins the trees of all its resources. -/
theorem rooted_joinResources {u : UnionFind} {root : Nat → Nat} (h : u.Rooted known.length root)
    (hnd : known.Nodup) (op : ω) :
    ∃ root', (joinResources known u op).Rooted known.length root' ∧ ∀ v w, root' v = root' w ↔
      UnionFind.Rooted.Joins root
        (((resources op).filterMap fun r => known.findIdx? (· == r)).map root) v w := by
  have hlt : ∀ i ∈ (resources op).filterMap fun r => known.findIdx? (· == r), i < known.length := by
    intro i hi
    obtain ⟨r, -, hr⟩ := List.mem_filterMap.1 hi
    exact (List.getElem?_eq_some_iff.1 ((findIdx?_eq_some_iff hnd).1 hr)).1
  rw [joinResources]
  generalize (resources op).filterMap (fun r => known.findIdx? (· == r)) = places at hlt ⊢
  cases places with
  | nil => exact ⟨root, h, fun v w => (UnionFind.Rooted.joins_nil root v w).symm⟩
  | cons first others =>
    obtain ⟨hfirst, hothers⟩ := List.forall_mem_cons.1 hlt
    exact h.foldl_union hfirst hothers

theorem Tracks.joinResources {ops : List ω} {u : UnionFind} (h : Tracks known ops u)
    (hnd : known.Nodup) {op : ω} (hop : ∀ r ∈ resources op, r ∈ known) :
    Tracks known (ops ++ [op]) (joinResources known u op) := by
  obtain ⟨root, hroot, hlinked⟩ := h
  obtain ⟨root', hroot', hjoin⟩ := rooted_joinResources hroot hnd op
  refine ⟨root', hroot', fun {i j r r'} hi hj => ?_⟩
  -- A place has a joined root when its resource is linked to one of the operation.
  have htops : ∀ {k r}, known[k]? = some r →
      (root k ∈ ((resources op).filterMap fun r => known.findIdx? (· == r)).map root ↔
        ∃ a ∈ resources op, Linked ops a r) := by
    intro k r hk
    simp only [List.mem_map, List.mem_filterMap, findIdx?_eq_some_iff hnd]
    constructor
    · intro h
      obtain ⟨p, ⟨a, ha, hp⟩, hpk⟩ := h
      exact ⟨a, ha, (hlinked hp hk).1 hpk⟩
    · intro h
      obtain ⟨a, ha, har⟩ := h
      obtain ⟨p, hp⟩ := List.mem_iff_getElem?.1 (hop a ha)
      exact ⟨p, ⟨a, ha, hp⟩, (hlinked hp hk).2 har⟩
  rw [hjoin, UnionFind.Rooted.Joins, linked_concat_iff, hlinked hi hj, htops hi, htops hj]

theorem Tracks.foldl_joinResources {ops done : List ω} {u : UnionFind} (h : Tracks known done u)
    (hnd : known.Nodup) (hops : ∀ op ∈ ops, ∀ r ∈ resources op, r ∈ known) :
    Tracks known (done ++ ops) (ops.foldl (Timetable.joinResources known) u) := by
  induction ops generalizing done u with
  | nil =>
    rw [List.append_nil]
    exact h
  | cons op ops ih =>
    obtain ⟨hop, hops⟩ := List.forall_mem_cons.1 hops
    have hmid := ih (h.joinResources hnd hop) hops
    rwa [List.append_assoc, List.singleton_append] at hmid

end

/-! ### Filling the classes -/

/-- Puts a resource to the class of a root; a new root opens a new class at the end. -/
def putTo (root : Nat) (r : Resource) (classes : List (Nat × SortedSet Resource)) :
    List (Nat × SortedSet Resource) :=
  if classes.any fun c => c.1 == root then
    classes.map fun c => if c.1 == root then (c.1, c.2.insert r) else c
  else classes ++ [(root, .ofList [r])]

theorem classify_cons (u : UnionFind) (classes : List (Nat × SortedSet Resource)) (r : Resource)
    (i : Nat) (rest : List (Resource × Nat)) :
    classify u classes ((r, i) :: rest)
      = classify (u.find i).2 (putTo (u.find i).1 r classes) rest := rfl

/-- The classes hold the resources of the places in `done`, each in the one class of its root. -/
structure Classified (root : Nat → Nat) (done : List (Resource × Nat))
    (classes : List (Nat × SortedSet Resource)) : Prop where
  nodup : (classes.map Prod.fst).Nodup
  mem_iff : ∀ c ∈ classes, ∀ r, r ∈ c.2 ↔ ∃ i, (r, i) ∈ done ∧ root i = c.1
  covered : ∀ e ∈ done, ∃ c ∈ classes, c.1 = root e.2

theorem classified_nil (root : Nat → Nat) : Classified root [] [] where
  nodup := List.nodup_nil
  mem_iff _ hc := nomatch hc
  covered _ he := nomatch he

namespace Classified

variable {root : Nat → Nat} {done : List (Resource × Nat)}
  {classes : List (Nat × SortedSet Resource)}

theorem exists_concat_iff {r q : Resource} {i k : Nat} :
    (∃ j, (q, j) ∈ done ++ [(r, i)] ∧ root j = k) ↔
      (∃ j, (q, j) ∈ done ∧ root j = k) ∨ q = r ∧ root i = k := by
  simp only [List.mem_append, List.mem_singleton, Prod.mk.injEq, or_and_right, exists_or, and_assoc]
  refine or_congr_right ⟨fun h => ?_, fun h => ⟨i, h.1, rfl, h.2⟩⟩
  obtain ⟨j, hq, rfl, hroot⟩ := h
  exact ⟨hq, hroot⟩

/-- The class of the root is there and gets one more member. -/
theorem insert (h : Classified root done classes) (r : Resource) {i : Nat}
    (hthere : ∃ c ∈ classes, c.1 = root i) :
    Classified root (done ++ [(r, i)])
      (classes.map fun c => if c.1 == root i then (c.1, c.2.insert r) else c) := by
  have hkeys : (classes.map fun c => if c.1 == root i then (c.1, c.2.insert r) else c).map Prod.fst
      = classes.map Prod.fst := by
    rw [List.map_map]
    refine List.map_congr_left fun c _ => ?_
    rw [Function.comp_apply]
    split <;> rfl
  refine ⟨by rw [hkeys]; exact h.nodup, ?_, ?_⟩
  · intro c hc q
    obtain ⟨d, hd, rfl⟩ := List.mem_map.1 hc
    by_cases hroot : d.1 = root i
    · rw [if_pos (by simpa using hroot), SortedSet.mem_insert, h.mem_iff d hd, exists_concat_iff,
        and_iff_left hroot.symm]
      exact or_comm
    · rw [if_neg (by simpa using hroot), h.mem_iff d hd, exists_concat_iff]
      exact (or_iff_left fun hq => hroot hq.2.symm).symm
  · intro e he
    have hkey : root e.2 ∈ classes.map Prod.fst := by
      rw [List.mem_map]
      rcases List.mem_append.1 he with he | he
      · exact h.covered e he
      · rw [List.mem_singleton.1 he]
        exact hthere
    rw [← hkeys] at hkey
    exact List.mem_map.1 hkey

/-- A new class is opened for the root. -/
theorem concat (h : Classified root done classes) (r : Resource) {i : Nat}
    (hnew : ∀ c ∈ classes, c.1 ≠ root i) :
    Classified root (done ++ [(r, i)]) (classes ++ [(root i, .ofList [r])]) := by
  refine ⟨?_, ?_, ?_⟩
  · rw [List.map_append, List.map_singleton]
    refine List.nodup_append.2 ⟨h.nodup, List.nodup_singleton _, ?_⟩
    intro k hk k' hk' heq
    obtain ⟨c, hc, rfl⟩ := List.mem_map.1 hk
    exact hnew c hc (heq.trans (List.mem_singleton.1 hk'))
  · intro c hc q
    rw [exists_concat_iff]
    rcases List.mem_append.1 hc with hc | hc
    · rw [h.mem_iff c hc]
      exact (or_iff_left fun hq => hnew c hc hq.2.symm).symm
    · rw [List.mem_singleton.1 hc, SortedSet.mem_ofList, List.mem_singleton, and_iff_left rfl]
      refine (or_iff_right fun hold => ?_).symm
      obtain ⟨j, hj, hroot⟩ := hold
      obtain ⟨d, hd, hdj⟩ := h.covered _ hj
      exact hnew d hd (hdj.trans hroot)
  · intro e he
    rcases List.mem_append.1 he with he | he
    · obtain ⟨c, hc, hroot⟩ := h.covered e he
      exact ⟨c, List.mem_append_left _ hc, hroot⟩
    · rw [List.mem_singleton.1 he]
      exact ⟨_, List.mem_append_right _ List.mem_cons_self, rfl⟩

theorem putTo (h : Classified root done classes) (r : Resource) (i : Nat) :
    Classified root (done ++ [(r, i)]) (putTo (root i) r classes) := by
  rw [Timetable.putTo]
  by_cases hthere : ∃ c ∈ classes, c.1 = root i
  · rw [if_pos (by simpa using hthere)]
    exact h.insert r hthere
  · rw [if_neg (by simpa using hthere)]
    exact h.concat r fun c hc hroot => hthere ⟨c, hc, hroot⟩

/-- Looking for roots moves none, so each resource goes to the class of its own. -/
theorem classify {n : Nat} {u : UnionFind} {rest : List (Resource × Nat)}
    (h : Classified root done classes) (hu : u.Rooted n root) (hrest : ∀ e ∈ rest, e.2 < n) :
    Classified root (done ++ rest) (classify u classes rest) := by
  induction rest generalizing u done classes with
  | nil =>
    rw [List.append_nil]
    exact h
  | cons e rest ih =>
    obtain ⟨he, hrest⟩ := List.forall_mem_cons.1 hrest
    obtain ⟨u', hfind, hu'⟩ := hu.find he
    have hnext := ih (h.putTo e.1 e.2) hu' hrest
    rw [classify_cons, hfind]
    rwa [List.append_assoc, List.singleton_append] at hnext

end Classified

/-! ### The independent resource sets -/

/-- The classes share no resource. Two resources are in one class when they are in use and a chain
leads from one to the other. -/
structure Components (ops : List ω) (classes : List (SortedSet Resource)) : Prop where
  disjoint : classes.Pairwise fun a b => ∀ r ∈ a, r ∉ b
  exists_mem_iff : ∀ {r r'}, (∃ c ∈ classes, r ∈ c ∧ r' ∈ c) ↔
    (∃ op ∈ ops, r ∈ resources op) ∧ Linked ops r r'

namespace Components

variable {ops : List ω} {classes : List (SortedSet Resource)}

/-- The class of a resource is the only one that it is in. -/
theorem eq_of_mem (h : Components ops classes) {a b : SortedSet Resource} (ha : a ∈ classes)
    (hb : b ∈ classes) {r : Resource} (hra : r ∈ a) (hrb : r ∈ b) : a = b := by
  by_contra hne
  have hsymm : Std.Symm fun a b : SortedSet Resource => ∀ r ∈ a, r ∉ b :=
    ⟨fun a b hab r hr hra => hab r hra hr⟩
  exact h.disjoint.forall ha hb hne r hra hrb

/-- The resources of an operation are all in one class. -/
theorem mem_of_together (h : Components ops classes) {op : ω} (hop : op ∈ ops) {r r' : Resource}
    (hr : r ∈ resources op) (hr' : r' ∈ resources op) {c : SortedSet Resource} (hc : c ∈ classes)
    (hrc : r ∈ c) : r' ∈ c := by
  have htogether : Together ops r r' := ⟨op, hop, hr, hr'⟩
  obtain ⟨d, hd, hrd, hrd'⟩ := h.exists_mem_iff.2 ⟨⟨op, hop, hr⟩, .single htogether⟩
  rwa [h.eq_of_mem hc hd hrc hrd]

theorem nodup (h : Components ops classes) (hne : ∀ c ∈ classes, ∃ r, r ∈ c) : classes.Nodup := by
  refine h.disjoint.imp_of_mem fun {a b} ha _ hab heq => ?_
  obtain ⟨r, hr⟩ := hne a ha
  exact hab r hr (heq ▸ hr)

/-- There is one family of classes, up to their order. -/
theorem perm {classes' : List (SortedSet Resource)} (h : Components ops classes)
    (h' : Components ops classes') (hne : ∀ c ∈ classes, ∃ r, r ∈ c)
    (hne' : ∀ c ∈ classes', ∃ r, r ∈ c) : classes.Perm classes' := by
  have hsub : ∀ {A B : List (SortedSet Resource)}, Components ops A → Components ops B →
      ∀ a ∈ A, ∀ b ∈ B, ∀ r ∈ a, r ∈ b → ∀ x ∈ a, x ∈ b := by
    intro A B hA hB a ha b hb r hra hrb x hx
    obtain ⟨d, hd, hrd, hxd⟩ := hB.exists_mem_iff.2 (hA.exists_mem_iff.1 ⟨a, ha, hra, hx⟩)
    rwa [hB.eq_of_mem hb hd hrb hrd]
  have hmem : ∀ {A B : List (SortedSet Resource)}, Components ops A → Components ops B →
      (∀ c ∈ A, ∃ r, r ∈ c) → ∀ a ∈ A, a ∈ B := by
    intro A B hA hB hneA a ha
    obtain ⟨r, hr⟩ := hneA a ha
    obtain ⟨b, hb, hrb, -⟩ := hB.exists_mem_iff.2 (hA.exists_mem_iff.1 ⟨a, ha, hr, hr⟩)
    have heq : a = b :=
      SortedSet.ext_mem fun x => ⟨hsub hA hB a ha b hb r hr hrb x, hsub hB hA b hb a ha r hrb hr x⟩
    rwa [heq]
  refine (List.perm_ext_iff_of_nodup (h.nodup hne) (h'.nodup hne')).2 fun c => ?_
  exact ⟨hmem h h' hne c, hmem h' h hne' c⟩

/-- An operation that acts on some resource acts on those of exactly one class. -/
theorem countP_actsOnAny (h : Components ops classes) {op : ω} (hop : op ∈ ops)
    (hacts : resources op ≠ []) :
    classes.countP (fun c => Slot.actsOnAny c.toList op) = 1 := by
  obtain ⟨r, hr⟩ := List.exists_mem_of_ne_nil _ hacts
  obtain ⟨c, hc, hrc, -⟩ := h.exists_mem_iff.2 ⟨⟨op, hop, hr⟩, .refl⟩
  have hiff : ∀ d ∈ classes, Slot.actsOnAny d.toList op = true ↔ r ∈ d := by
    intro d hd
    rw [Slot.actsOnAny_iff]
    constructor
    · intro hx
      obtain ⟨r', hr', hrd⟩ := hx
      exact h.mem_of_together hop hr' hr hd hrd
    · exact fun hrd => ⟨r, hr, hrd⟩
  obtain ⟨before, after, rfl⟩ := List.append_of_mem hc
  obtain ⟨-, htail, hcross⟩ := List.pairwise_append.1 h.disjoint
  have hbefore : before.countP (fun c => Slot.actsOnAny c.toList op) = 0 := by
    refine List.countP_eq_zero.2 fun d hd hdacts => ?_
    have hrd := (hiff d (List.mem_append_left _ hd)).1 hdacts
    exact hcross d hd c List.mem_cons_self r hrd hrc
  have hafter : after.countP (fun c => Slot.actsOnAny c.toList op) = 0 := by
    refine List.countP_eq_zero.2 fun d hd hdacts => ?_
    have hrd := (hiff d (List.mem_append_right _ (List.mem_cons_of_mem _ hd))).1 hdacts
    exact (List.pairwise_cons.1 htail).1 d hd r hrc hrd
  have hself : Slot.actsOnAny c.toList op = true := (hiff c hc).2 hrc
  rw [List.countP_append, List.countP_cons, if_pos hself, hbefore, hafter]

end Components

/-- The classes by the roots of a forest that tracks what is linked. -/
theorem Classified.components {root : Nat → Nat} {known : List Resource}
    {classes : List (Nat × SortedSet Resource)} {ops : List ω}
    (h : Classified root known.zipIdx classes)
    (hknown : ∀ r, r ∈ known ↔ ∃ op ∈ ops, r ∈ resources op)
    (hlinked : ∀ {i j r r'}, known[i]? = some r → known[j]? = some r' →
      (root i = root j ↔ Linked ops r r')) :
    Components ops (classes.map Prod.snd) := by
  have hmem : ∀ c ∈ classes, ∀ r, r ∈ c.2 ↔ ∃ i, known[i]? = some r ∧ root i = c.1 := by
    intro c hc r
    rw [h.mem_iff c hc]
    simp only [List.mem_zipIdx_iff_getElem?]
  refine ⟨?_, ?_⟩
  · rw [List.pairwise_map]
    refine (List.pairwise_map.1 h.nodup).imp_of_mem fun {c d} hc hd hne r hrc hrd => ?_
    obtain ⟨i, hi, hic⟩ := (hmem c hc r).1 hrc
    obtain ⟨j, hj, hjd⟩ := (hmem d hd r).1 hrd
    have hij : root i = root j := (hlinked hi hj).2 .refl
    exact hne (hic.symm.trans (hij.trans hjd))
  · intro r r'
    constructor
    · intro hx
      obtain ⟨_, hset, hr, hr'⟩ := hx
      obtain ⟨c, hc, rfl⟩ := List.mem_map.1 hset
      obtain ⟨i, hi, hic⟩ := (hmem c hc r).1 hr
      obtain ⟨j, hj, hjc⟩ := (hmem c hc r').1 hr'
      exact ⟨(hknown r).1 (List.mem_of_getElem? hi), (hlinked hi hj).1 (hic.trans hjc.symm)⟩
    · intro hx
      obtain ⟨hused, hlink⟩ := hx
      obtain ⟨i, hi⟩ := List.mem_iff_getElem?.1 ((hknown r).2 hused)
      obtain ⟨j, hj⟩ := List.mem_iff_getElem?.1 ((hknown r').2 (hlink.used hused))
      obtain ⟨c, hc, hic⟩ := h.covered (r, i) (List.mem_zipIdx_iff_getElem?.2 hi)
      refine ⟨c.2, List.mem_map_of_mem hc, (hmem c hc r).2 ⟨i, hi, hic.symm⟩, ?_⟩
      exact (hmem c hc r').2 ⟨j, hj, ((hlinked hi hj).2 hlink).symm.trans hic.symm⟩

/-- The resources in use in sound slots are those of their operations. -/
theorem exists_mem_resourcesInUse_iff {slots : List (Slot ω)} (h : ∀ slot ∈ slots, slot.Sound)
    {r : Resource} : (∃ slot ∈ slots, r ∈ slot.resourcesInUse) ↔
      ∃ op ∈ slots.flatMap Slot.operations, r ∈ resources op := by
  constructor
  · intro hx
    obtain ⟨slot, hslot, hr⟩ := hx
    obtain ⟨op, hop, hr⟩ := List.mem_flatMap.1 ((h slot hslot).mem_resourcesInUse_iff.1 hr)
    exact ⟨op, List.mem_flatMap.2 ⟨slot, hslot, hop⟩, hr⟩
  · intro hx
    obtain ⟨op, hop, hr⟩ := hx
    obtain ⟨slot, hslot, hop⟩ := List.mem_flatMap.1 hop
    exact ⟨slot, hslot, (h slot hslot).mem_resourcesInUse_iff.2 (List.mem_flatMap.2 ⟨op, hop, hr⟩)⟩

/-- The independent resource sets of sound slots are the classes of linked resources. -/
theorem components_independentResources {slots : List (Slot ω)} (h : ∀ slot ∈ slots, slot.Sound) :
    Components (slots.flatMap Slot.operations) (independentResources slots) := by
  have hknown : ∀ r, r ∈ (SortedSet.ofList (slots.flatMap Slot.resourcesInUse)).toList ↔
      ∃ op ∈ slots.flatMap Slot.operations, r ∈ resources op := by
    intro r
    refine SortedSet.mem_ofList.trans ?_
    rw [List.mem_flatMap]
    exact exists_mem_resourcesInUse_iff h
  rw [independentResources]
  generalize SortedSet.ofList (slots.flatMap Slot.resourcesInUse) = known at hknown ⊢
  have hnd := known.increasing.nodup
  have hops : ∀ op ∈ slots.flatMap Slot.operations, ∀ r ∈ resources op, r ∈ known.toList :=
    fun op hop r hr => (hknown r).2 ⟨op, hop, hr⟩
  obtain ⟨root, hroot, hlinked⟩ := (tracks_ofSize hnd).foldl_joinResources hnd hops
  have hplaces : ∀ e ∈ known.toList.zipIdx, e.2 < known.toList.length := fun e he =>
    (List.getElem?_eq_some_iff.1 (List.mem_zipIdx_iff_getElem?.1 he)).1
  exact ((classified_nil root).classify hroot hplaces).components hknown hlinked

end Timetable
