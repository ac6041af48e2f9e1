import Timetable.Proofs.Queue.Waiting
import Mathlib.Data.List.Perm.Basic

/-!
# A bucket queue behaves like a list of arrivals

The simplest stable priority queue is the list of the pairs that wait, in the order in which they
came. A pair joins at the end, unless it is refused as a duplicate, and the first pair among those
with the smallest key is served. No sequence of requests tells a bucket queue from this list: the
moves of the offset, the empty buckets and the record of waiting pairs are not seen.

* `QueueInterface`, `QueueInterface.transcript`: what a caller can ask, and what he gets to see.
* `Arrivals.interface`, `BucketQueue.interface`: the two queues.
* `Arrivals.dequeue_eq`: which pair the list serves.
* `BucketQueue.Matches`: a bucket queue and a list that hold the same.
* `BucketQueue.transcript_eq_arrivals`: both answer every sequence of requests alike.
-/

namespace Timetable

variable {α : Type}

/-! ### Requests and what is seen of them -/

/-- What a caller can ask of a queue. -/
inductive QueueRequest (α : Type) where
  | enqueue (key : Nat) (value : α)
  | dequeue
  /-- Up to so many values are drawn through a draining iterator. -/
  | drain (limit : Nat)
  /-- A draining iterator is run to its end. -/
  | drainAll
  /-- A copy of the queue is consumed. -/
  | intoIter

/-- What the queue answers. -/
inductive QueueAnswer (α : Type) where
  | accepted (fresh : Bool)
  | served (pair : Option (Nat × α))
  | listed (pairs : List (Nat × α))

/-- An answer, with what the queue says of itself afterwards. A draining iterator keeps nothing
but the queue, so the hint is also what it announces at this point of its run. -/
structure QueueReport (α : Type) where
  answer : QueueAnswer α
  peekKey? : Option Nat
  size : Nat
  isEmpty : Bool
  sizeHint : Nat × Option Nat

/-- The functions of a priority queue. -/
structure QueueInterface (σ α : Type) where
  enqueue : σ → Nat → α → Bool × σ
  dequeue : σ → Option (Nat × α) × σ
  take : σ → Nat → List (Nat × α) × σ
  takeAll : σ → List (Nat × α) × σ
  drain : σ → List (Nat × α)
  peekKey? : σ → Option Nat
  size : σ → Nat
  isEmpty : σ → Bool
  sizeHint : σ → Nat × Option Nat

namespace QueueInterface

variable {σ τ : Type}

/-- The answer to a request, and the queue that is left. -/
def respond (I : QueueInterface σ α) (s : σ) : QueueRequest α → QueueAnswer α × σ
  | .enqueue key value =>
    let (fresh, s') := I.enqueue s key value
    (.accepted fresh, s')
  | .dequeue =>
    let (pair, s') := I.dequeue s
    (.served pair, s')
  | .drain limit =>
    let (pairs, s') := I.take s limit
    (.listed pairs, s')
  | .drainAll =>
    let (pairs, s') := I.takeAll s
    (.listed pairs, s')
  | .intoIter => (.listed (I.drain s), s)

/-- The report of an answer that leaves a queue. -/
def report (I : QueueInterface σ α) (answer : QueueAnswer α) (s : σ) : QueueReport α :=
  ⟨answer, I.peekKey? s, I.size s, I.isEmpty s, I.sizeHint s⟩

/-- What a caller sees who makes the requests one after the other. -/
def transcript (I : QueueInterface σ α) : σ → List (QueueRequest α) → List (QueueReport α)
  | _, [] => []
  | s, request :: requests =>
    let (answer, s') := I.respond s request
    I.report answer s' :: I.transcript s' requests

/-- Related queues answer alike and stay related. -/
structure Simulates (I : QueueInterface σ α) (J : QueueInterface τ α) (R : σ → τ → Prop) :
    Prop where
  enqueue : ∀ {s t}, R s t → ∀ key value,
    (I.enqueue s key value).1 = (J.enqueue t key value).1 ∧
      R (I.enqueue s key value).2 (J.enqueue t key value).2
  dequeue : ∀ {s t}, R s t → (I.dequeue s).1 = (J.dequeue t).1 ∧ R (I.dequeue s).2 (J.dequeue t).2
  take : ∀ {s t}, R s t → ∀ n, (I.take s n).1 = (J.take t n).1 ∧ R (I.take s n).2 (J.take t n).2
  takeAll : ∀ {s t}, R s t → (I.takeAll s).1 = (J.takeAll t).1 ∧ R (I.takeAll s).2 (J.takeAll t).2
  drain : ∀ {s t}, R s t → I.drain s = J.drain t
  report : ∀ {s t}, R s t → ∀ answer, I.report answer s = J.report answer t

namespace Simulates

variable {I : QueueInterface σ α} {J : QueueInterface τ α} {R : σ → τ → Prop}

/-- One request. -/
theorem respond (h : Simulates I J R) {s : σ} {t : τ} (hR : R s t) (request : QueueRequest α) :
    (I.respond s request).1 = (J.respond t request).1 ∧
      R (I.respond s request).2 (J.respond t request).2 := by
  cases request with
  | enqueue key value => exact (h.enqueue hR key value).imp (congrArg QueueAnswer.accepted) id
  | dequeue => exact (h.dequeue hR).imp (congrArg QueueAnswer.served) id
  | drain limit => exact (h.take hR limit).imp (congrArg QueueAnswer.listed) id
  | drainAll => exact (h.takeAll hR).imp (congrArg QueueAnswer.listed) id
  | intoIter => exact ⟨congrArg QueueAnswer.listed (h.drain hR), hR⟩

/-- A sequence of requests. -/
theorem transcript_eq (h : Simulates I J R) (requests : List (QueueRequest α)) {s : σ} {t : τ}
    (hR : R s t) : I.transcript s requests = J.transcript t requests := by
  induction requests generalizing s t with
  | nil => rfl
  | cons request requests ih =>
    obtain ⟨hanswer, hnext⟩ := h.respond hR request
    show I.report (I.respond s request).1 (I.respond s request).2 ::
        I.transcript (I.respond s request).2 requests
      = J.report (J.respond t request).1 (J.respond t request).2 ::
        J.transcript (J.respond t request).2 requests
    rw [h.report hnext, hanswer, ih hnext]

end Simulates

end QueueInterface

/-! ### The list of arrivals -/

namespace Arrivals

def leastKey? (l : List (Nat × α)) : Option Nat := (l.map Prod.fst).min?

/-- The pair joins at the end. Where duplicates are dropped, a pair that waits already is refused. -/
def enqueue [BEq α] (dropDuplicates : Bool) (l : List (Nat × α)) (key : Nat) (value : α) :
    Bool × List (Nat × α) :=
  if dropDuplicates && l.contains (key, value) then (false, l) else (true, l ++ [(key, value)])

/-- The first pair among those with the smallest key leaves. -/
def dequeue (l : List (Nat × α)) : Option (Nat × α) × List (Nat × α) :=
  match leastKey? l with
  | none => (none, l)
  | some key => (l.find? fun p => p.1 == key, l.eraseP fun p => p.1 == key)

/-- Up to so many pairs leave, one after the other. -/
def take (l : List (Nat × α)) : Nat → List (Nat × α) × List (Nat × α)
  | 0 => ([], l)
  | n + 1 =>
    match dequeue l with
    | (none, l') => ([], l')
    | (some first, l') =>
      let (later, l'') := take l' n
      (first :: later, l'')

def drain (l : List (Nat × α)) : List (Nat × α) := (take l l.length).1

def interface [BEq α] (dropDuplicates : Bool) : QueueInterface (List (Nat × α)) α where
  enqueue := enqueue dropDuplicates
  dequeue := dequeue
  take := take
  takeAll l := (drain l, [])
  drain := drain
  peekKey? := leastKey?
  size := List.length
  isEmpty := List.isEmpty
  sizeHint l := (l.length, some l.length)

theorem leastKey?_eq_some_iff {l : List (Nat × α)} {key : Nat} :
    leastKey? l = some key ↔ (∃ p ∈ l, p.1 = key) ∧ ∀ p ∈ l, key ≤ p.1 := by
  rw [leastKey?, List.min?_eq_some_iff]
  simp

/-- What is served stands after pairs with a greater key, and before pairs with a key that is not
smaller. -/
theorem dequeue_eq {before after : List (Nat × α)} {first : Nat × α}
    (hbefore : ∀ p ∈ before, first.1 < p.1) (hafter : ∀ p ∈ after, first.1 ≤ p.1) :
    dequeue (before ++ first :: after) = (some first, before ++ after) := by
  have hleast : leastKey? (before ++ first :: after) = some first.1 := by
    refine leastKey?_eq_some_iff.2 ⟨⟨first, by simp, rfl⟩, fun p hp => ?_⟩
    rcases List.mem_append.1 hp with hp | hp
    · exact Nat.le_of_lt (hbefore p hp)
    · rcases List.mem_cons.1 hp with rfl | hp
      · exact Nat.le_refl _
      · exact hafter p hp
  have hskip : ∀ p ∈ before, ¬(p.1 == first.1) = true := by
    intro p hp heq
    have := hbefore p hp
    have := beq_iff_eq.1 heq
    omega
  rw [dequeue, hleast]
  show (_, _) = _
  rw [List.find?_append, List.find?_eq_none.2 hskip, List.eraseP_append_right _ hskip]
  simp

/-- What waits under a key, before and after the first pair with the smallest key leaves. -/
theorem waiting_of_first {before after : List (Nat × α)} {key : Nat} {value : α}
    (hbefore : ∀ p ∈ before, key < p.1) (k : Nat) :
    ((before ++ (key, value) :: after).filter fun p => p.1 == k).map Prod.snd =
      if k = key then value :: ((before ++ after).filter fun p => p.1 == k).map Prod.snd
      else ((before ++ after).filter fun p => p.1 == k).map Prod.snd := by
  rw [List.filter_append, List.filter_append]
  by_cases hk : k = key
  · have hnone : (before.filter fun p => p.1 == k) = [] := by
      refine List.filter_eq_nil_iff.2 fun p hp heq => ?_
      have := hbefore p hp
      have := beq_iff_eq.1 heq
      omega
    rw [if_pos hk, hnone, List.filter_cons_of_pos (by simp [hk])]
    rfl
  · rw [if_neg hk, List.filter_cons_of_neg (by simp [Ne.symm hk])]

/-- A list that is not empty serves a pair. -/
theorem exists_first {l : List (Nat × α)} (h : l ≠ []) : ∃ before first after,
    l = before ++ first :: after ∧ (∀ p ∈ before, first.1 < p.1) ∧ ∀ p ∈ after, first.1 ≤ p.1 := by
  obtain ⟨key, hkey⟩ : ∃ key, leastKey? l = some key := by
    rw [leastKey?, ← Option.isSome_iff_exists, List.isSome_min?_iff]
    simpa using h
  obtain ⟨⟨p, hp, rfl⟩, hleast⟩ := leastKey?_eq_some_iff.1 hkey
  obtain ⟨first, hfirst⟩ : ∃ first, l.find? (fun q => q.1 == p.1) = some first :=
    Option.isSome_iff_exists.1 (List.find?_isSome.2 ⟨p, hp, by simp⟩)
  obtain ⟨heq, before, after, rfl, hbefore⟩ := List.find?_eq_some_iff_append.1 hfirst
  have hfirst : first.1 = p.1 := beq_iff_eq.1 heq
  refine ⟨before, first, after, rfl, fun q hq => ?_, fun q hq => ?_⟩
  · have hne : q.1 ≠ p.1 := by simpa using hbefore q hq
    have := hleast q (List.mem_append_left _ hq)
    omega
  · have := hleast q (List.mem_append_right _ (List.mem_cons_of_mem _ hq))
    omega

/-- Pair by pair, whatever waits is served. -/
theorem serving_induction {P : List (Nat × α) → Prop} (nil : P [])
    (serve : ∀ before first after, (∀ p ∈ before, first.1 < p.1) → (∀ p ∈ after, first.1 ≤ p.1) →
      P (before ++ after) → P (before ++ first :: after)) (l : List (Nat × α)) : P l := by
  generalize hn : l.length = n
  induction n generalizing l with
  | zero =>
    rw [List.eq_nil_of_length_eq_zero hn]
    exact nil
  | succ n ih =>
    have hne : l ≠ [] := by
      rintro rfl
      cases hn
    obtain ⟨before, first, after, rfl, hbefore, hafter⟩ := exists_first hne
    refine serve before first after hbefore hafter (ih (before ++ after) ?_)
    simp only [List.length_append, List.length_cons] at hn ⊢
    omega

theorem take_length_eq {before after : List (Nat × α)} {first : Nat × α}
    (hbefore : ∀ p ∈ before, first.1 < p.1) (hafter : ∀ p ∈ after, first.1 ≤ p.1) :
    take (before ++ first :: after) (before ++ first :: after).length =
      (first :: drain (before ++ after), (take (before ++ after) (before ++ after).length).2) := by
  have hlength : (before ++ first :: after).length = (before ++ after).length + 1 := by
    simp only [List.length_append, List.length_cons]
    omega
  rw [hlength, take, dequeue_eq hbefore hafter]
  rfl

/-- Drawing as many pairs as there are leaves nothing. -/
theorem take_length_snd (l : List (Nat × α)) : (take l l.length).2 = [] := by
  induction l using serving_induction with
  | nil => rfl
  | serve before first after hbefore hafter ih => rw [take_length_eq hbefore hafter, ih]

theorem drain_eq {before after : List (Nat × α)} {first : Nat × α}
    (hbefore : ∀ p ∈ before, first.1 < p.1) (hafter : ∀ p ∈ after, first.1 ≤ p.1) :
    drain (before ++ first :: after) = first :: drain (before ++ after) := by
  rw [drain, take_length_eq hbefore hafter]

/-- What leaves is what has arrived. -/
theorem drain_perm (l : List (Nat × α)) : (drain l).Perm l := by
  induction l using serving_induction with
  | nil => exact .refl _
  | serve before first after hbefore hafter ih =>
    rw [drain_eq hbefore hafter]
    exact (ih.cons first).trans List.perm_middle.symm

end Arrivals

namespace BucketQueue

/-! ### A bucket queue and a list that hold the same -/

theorem waitingAt_add_offset {q : BucketQueue α} {i : Nat} (hi : i < q.buckets.length) :
    q.waitingAt (i + q.offset) = q.buckets[i] := by
  rw [waitingAt, bucketAt, if_pos (Nat.le_add_left _ _), Nat.add_sub_cancel,
    List.getElem?_eq_getElem hi]
  rfl

/-- What waits, waits in one of the buckets. -/
theorem exists_bucket_of_waitingAt_ne_nil {q : BucketQueue α} {key : Nat}
    (h : q.waitingAt key ≠ []) : ∃ i, key = i + q.offset ∧ i < q.buckets.length := by
  rw [waitingAt, bucketAt] at h
  split at h
  · rename_i hoff
    refine ⟨key - q.offset, (Nat.sub_add_cancel hoff).symm, Nat.lt_of_not_le fun hle => h ?_⟩
    rw [List.getElem?_eq_none hle]
    rfl
  · exact absurd rfl h

/-- The smallest key is one under which something waits, and nothing waits under a smaller one. -/
theorem peekKey?_eq_some_iff {q : BucketQueue α} {key : Nat} :
    q.peekKey? = some key ↔ q.waitingAt key ≠ [] ∧ ∀ k < key, q.waitingAt k = [] := by
  rw [peekKey?, Option.map_eq_some_iff]
  constructor
  · intro h
    obtain ⟨i, hi, rfl⟩ := h
    obtain ⟨hlt, hne, hbelow⟩ := List.findIdx?_eq_some_iff_getElem.1 hi
    refine ⟨?_, fun k hk => not_not.1 fun hwaits => ?_⟩
    · rw [waitingAt_add_offset hlt]
      simpa using hne
    · obtain ⟨j, rfl, hj⟩ := exists_bucket_of_waitingAt_ne_nil hwaits
      rw [waitingAt_add_offset hj] at hwaits
      exact hwaits (by simpa using hbelow j (by omega))
  · intro h
    obtain ⟨hne, hbelow⟩ := h
    obtain ⟨i, rfl, hlt⟩ := exists_bucket_of_waitingAt_ne_nil hne
    rw [waitingAt_add_offset hlt] at hne
    refine ⟨i, List.findIdx?_eq_some_iff_getElem.2 ⟨hlt, ?_, fun j hj => ?_⟩, rfl⟩
    · simpa using hne
    · have hnil := hbelow (j + q.offset) (by omega)
      rw [waitingAt_add_offset (by omega)] at hnil
      simp [hnil]

/-- Where nothing is served, at most the empty buckets in front have gone. -/
theorem dequeue_eq_none [BEq α] {q q' : BucketQueue α} (hq : q.dequeue = (none, q')) :
    q' = q.dropEmpty := by
  rw [dequeue] at hq
  split at hq <;> cases hq
  rfl

/-- The queue and the list hold the same pairs, under each key in the same order. Where duplicates
are dropped, the record lists the pairs and no two of them are equal. -/
structure Matches [BEq α] (dropDuplicates : Bool) (q : BucketQueue α) (l : List (Nat × α)) :
    Prop where
  counted : q.size = q.buckets.flatten.length
  size_eq : q.size = l.length
  waitingAt_eq : ∀ key, q.waitingAt key = (l.filter fun p => p.1 == key).map Prod.snd
  dropsDuplicates_eq : q.dropsDuplicates = dropDuplicates
  pending_perm : ∀ pairs ∈ q.pending, pairs.Perm l
  distinct : dropDuplicates = true → l.Pairwise fun a b => (a == b) = false

namespace Matches

section

variable [BEq α] {drop : Bool} {q : BucketQueue α} {l : List (Nat × α)}

theorem empty (drop : Bool) : Matches drop (BucketQueue.empty drop : BucketQueue α) [] where
  counted := rfl
  size_eq := rfl
  waitingAt_eq key := waitingAt_empty drop key
  dropsDuplicates_eq := by cases drop <;> rfl
  pending_perm pairs h := by
    cases drop <;> cases h
    exact List.Perm.nil
  distinct _ := List.Pairwise.nil

/-- The empty buckets in front do not matter. -/
theorem dropEmpty (h : Matches drop q l) : Matches drop q.dropEmpty l where
  counted := by rw [flatten_dropEmpty]; exact h.counted
  size_eq := h.size_eq
  waitingAt_eq key := by rw [waitingAt_dropEmpty]; exact h.waitingAt_eq key
  dropsDuplicates_eq := h.dropsDuplicates_eq
  pending_perm := h.pending_perm
  distinct := h.distinct

theorem waitingAt_ne_nil_iff (h : Matches drop q l) {key : Nat} :
    q.waitingAt key ≠ [] ↔ ∃ p ∈ l, p.1 = key := by
  rw [h.waitingAt_eq, ne_eq, List.map_eq_nil_iff, List.filter_eq_nil_iff]
  simp

theorem peekKey?_eq (h : Matches drop q l) : q.peekKey? = Arrivals.leastKey? l := by
  refine Option.ext fun key => ?_
  rw [peekKey?_eq_some_iff, Arrivals.leastKey?_eq_some_iff, h.waitingAt_ne_nil_iff]
  refine and_congr_right fun _ => ?_
  constructor
  · intro hbelow p hp
    refine Nat.le_of_not_lt fun hlt => ?_
    exact h.waitingAt_ne_nil_iff.2 ⟨p, hp, rfl⟩ (hbelow p.1 hlt)
  · intro hleast k hk
    refine not_not.1 fun hne => ?_
    obtain ⟨p, hp, rfl⟩ := h.waitingAt_ne_nil_iff.1 hne
    exact absurd (hleast p hp) (Nat.not_le.2 hk)

theorem isEmpty_eq (h : Matches drop q l) : q.isEmpty = l.isEmpty := by
  rw [BucketQueue.isEmpty, h.size_eq]
  cases l <;> rfl

/-- A pair that arrives, and is not refused, joins the list at its end. -/
theorem arrive (h : Matches drop q l) {key : Nat} {value : α}
    (hfresh : drop = true → ∀ p ∈ l, (p == (key, value)) = false) :
    Matches drop (q.arrive key value) (l ++ [(key, value)]) where
  counted := size_store h.counted key value
  size_eq := by
    show q.size + 1 = _
    rw [h.size_eq, List.length_append, List.length_singleton]
  waitingAt_eq k := by
    rw [waitingAt_arrive, h.waitingAt_eq, List.filter_append, List.map_append]
    by_cases hk : k = key
    · simp [hk]
    · simp [hk, Ne.symm hk]
  dropsDuplicates_eq := by
    rw [← h.dropsDuplicates_eq]
    exact Option.isSome_map
  pending_perm pairs' h' := by
    obtain ⟨pairs, hpairs, rfl⟩ := Option.map_eq_some_iff.1 h'
    exact ((h.pending_perm pairs hpairs).cons _).trans (List.perm_append_singleton _ _).symm
  distinct hd := by
    refine List.pairwise_append.2 ⟨h.distinct hd, List.pairwise_singleton _ _, ?_⟩
    intro p hp r hr
    rw [List.mem_singleton.1 hr]
    exact hfresh hd p hp

/-- What is served is the first pair of the list that has the smallest key. -/
theorem exists_served (h : Matches drop q l) {q' : BucketQueue α} {key : Nat} {value : α}
    (hq : q.dequeue = (some (key, value), q')) : ∃ before after,
      l = before ++ (key, value) :: after ∧ (∀ p ∈ before, key < p.1) ∧ ∀ p ∈ after, key ≤ p.1 := by
  have hleast : ∀ p ∈ l, key ≤ p.1 := by
    intro p hp
    refine Nat.le_of_not_lt fun hlt => ?_
    exact h.waitingAt_ne_nil_iff.2 ⟨p, hp, rfl⟩ (waitingAt_of_lt hq hlt)
  have hkey : (l.filter fun p => p.1 == key).map Prod.snd = value :: q'.waitingAt key := by
    rw [← h.waitingAt_eq, waitingAt_dequeue h.counted hq, if_pos rfl]
  obtain ⟨first, rest, hfilter, hvalue, -⟩ := List.map_eq_cons_iff.1 hkey
  obtain ⟨before, after, rfl, hbefore, hfirst, -⟩ := List.filter_eq_cons_iff.1 hfilter
  have hpair : first = (key, value) := Prod.ext (beq_iff_eq.1 hfirst) hvalue
  subst hpair
  refine ⟨before, after, rfl, fun p hp => ?_, fun p hp => hleast p (by simp [hp])⟩
  have hne : p.1 ≠ key := by simpa using hbefore p hp
  have := hleast p (List.mem_append_left _ hp)
  omega

end

section Equivalence

variable [BEq α] [EquivBEq α] {drop : Bool} {q : BucketQueue α} {l : List (Nat × α)}

omit [EquivBEq α] in
theorem beq_pair (a b : Nat × α) : (a == b) = (a.1 == b.1 && a.2 == b.2) := rfl

theorem pair_beq_comm (a b : Nat × α) : (a == b) = (b == a) := by
  rw [beq_pair, beq_pair, BEq.comm, BEq.comm (a := a.2)]

/-- Erasing a pair from a list in which no two pairs are equal takes that very pair. -/
theorem perm_cons_erase {pairs : List (Nat × α)} {p : Nat × α}
    (hdistinct : pairs.Pairwise fun a b => (a == b) = false) (hp : p ∈ pairs) :
    pairs.Perm (p :: pairs.erase p) := by
  induction pairs with
  | nil => cases hp
  | cons a pairs ih =>
    obtain ⟨ha, hpairs⟩ := List.pairwise_cons.1 hdistinct
    rw [List.erase_cons]
    rcases List.mem_cons.1 hp with rfl | hp
    · rw [if_pos (by simp)]
    · rw [if_neg (by simp [ha p hp])]
      exact ((ih hpairs hp).cons a).trans (List.Perm.swap _ _ _)

theorem enqueue (h : Matches drop q l) (key : Nat) (value : α) :
    (q.enqueue key value).1 = (Arrivals.enqueue drop l key value).1 ∧
      Matches drop (q.enqueue key value).2 (Arrivals.enqueue drop l key value).2 := by
  obtain ⟨buckets, offset, size, pending⟩ := q
  cases pending with
  | none =>
    have hdrop : drop = false := h.dropsDuplicates_eq.symm
    subst hdrop
    exact ⟨rfl, h.arrive fun hd => nomatch hd⟩
  | some pairs =>
    have hdrop : drop = true := h.dropsDuplicates_eq.symm
    subst hdrop
    have hcontains := (h.pending_perm pairs rfl).contains_eq (a := (key, value))
    rw [BucketQueue.enqueue, Arrivals.enqueue, Bool.true_and]
    dsimp only
    rw [hcontains]
    cases hmem : l.contains (key, value) with
    | true => exact ⟨rfl, h⟩
    | false =>
      refine ⟨rfl, h.arrive fun _ p hp => ?_⟩
      rw [List.contains_eq_any_beq, List.any_eq_false] at hmem
      rw [pair_beq_comm]
      simpa using hmem p hp

/-- The pair that is served leaves the list. -/
theorem leave {before after : List (Nat × α)} {key : Nat} {value : α}
    (h : Matches drop q (before ++ (key, value) :: after)) {q' : BucketQueue α}
    (hq : q.dequeue = (some (key, value), q')) (hbefore : ∀ p ∈ before, key < p.1) :
    Matches drop q' (before ++ after) := by
  obtain ⟨hsize, hcounted⟩ := size_dequeue h.counted hq
  have hpending : q'.pending = q.pending.map (List.erase · (key, value)) := by
    obtain ⟨bucket, rest, -, -, rfl⟩ := dequeue_eq_some hq
    rfl
  refine ⟨hcounted, ?_, fun k => ?_, ?_, fun pairs' h' => ?_, fun hd => ?_⟩
  · have hlength := h.size_eq
    simp only [List.length_append, List.length_cons] at hlength ⊢
    omega
  · have hview := h.waitingAt_eq k
    rw [waitingAt_dequeue h.counted hq, Arrivals.waiting_of_first hbefore] at hview
    split at hview
    · exact (List.cons.inj hview).2
    · exact hview
  · rw [← h.dropsDuplicates_eq, dropsDuplicates, hpending, Option.isSome_map]
    rfl
  · rw [hpending] at h'
    obtain ⟨pairs, hpairs, rfl⟩ := Option.map_eq_some_iff.1 h'
    have hperm := h.pending_perm pairs hpairs
    have hd : drop = true := by
      rw [← h.dropsDuplicates_eq]
      exact Option.isSome_iff_exists.2 ⟨pairs, hpairs⟩
    have hdistinct : pairs.Pairwise fun a b => (a == b) = false := by
      refine hperm.symm.pairwise (h.distinct hd) fun {a b} hab => ?_
      rw [pair_beq_comm]
      exact hab
    have herase := perm_cons_erase hdistinct (hperm.mem_iff.2 (by simp) : (key, value) ∈ pairs)
    exact (herase.symm.trans (hperm.trans List.perm_middle)).cons_inv
  · refine (h.distinct hd).sublist ?_
    exact (List.Sublist.refl before).append (List.sublist_cons_self _ after)

/-- A queue serves the first pair of the list that has the smallest key. -/
theorem dequeue (h : Matches drop q l) :
    q.dequeue.1 = (Arrivals.dequeue l).1 ∧ Matches drop q.dequeue.2 (Arrivals.dequeue l).2 := by
  rcases hq : q.dequeue with ⟨_ | ⟨key, value⟩, q'⟩
  · have hnone : ∀ p, p ∉ l := fun p hp =>
      h.waitingAt_ne_nil_iff.2 ⟨p, hp, rfl⟩ (waitingAt_of_dequeue_none hq p.1)
    obtain rfl := List.eq_nil_iff_forall_not_mem.2 hnone
    rw [dequeue_eq_none hq]
    exact ⟨rfl, h.dropEmpty⟩
  · obtain ⟨before, after, rfl, hbefore, hafter⟩ := h.exists_served hq
    rw [Arrivals.dequeue_eq hbefore hafter]
    exact ⟨rfl, h.leave hq hbefore⟩

theorem take (h : Matches drop q l) (n : Nat) :
    (q.take n).1 = (Arrivals.take l n).1 ∧ Matches drop (q.take n).2 (Arrivals.take l n).2 := by
  induction n generalizing q l with
  | zero => exact ⟨rfl, h⟩
  | succ n ih =>
    obtain ⟨hanswer, hnext⟩ := h.dequeue
    rw [BucketQueue.take, Arrivals.take]
    rcases hq : q.dequeue with ⟨served, q'⟩
    rcases hl : Arrivals.dequeue l with ⟨first, l'⟩
    rw [hq, hl] at hanswer hnext
    obtain rfl : served = first := hanswer
    cases served with
    | none => exact ⟨rfl, hnext⟩
    | some pair =>
      obtain ⟨hlater, hrest⟩ := ih hnext
      exact ⟨congrArg (pair :: ·) hlater, hrest⟩

/-- Everything is served in the order of the list, and nothing is left. -/
theorem takeAll (h : Matches drop q l) :
    (q.take q.size).1 = Arrivals.drain l ∧ Matches drop (q.take q.size).2 [] := by
  obtain ⟨hanswer, hnext⟩ := h.take l.length
  rw [h.size_eq, ← Arrivals.take_length_snd l]
  exact ⟨hanswer, hnext⟩

end Equivalence

end Matches

def interface [BEq α] : QueueInterface (BucketQueue α) α where
  enqueue := enqueue
  dequeue := dequeue
  take := take
  takeAll q := q.take q.size
  drain := drain
  peekKey? := peekKey?
  size := size
  isEmpty := isEmpty
  sizeHint := sizeHint

theorem simulates_arrivals [BEq α] [EquivBEq α] (drop : Bool) :
    interface.Simulates (Arrivals.interface drop) (Matches (α := α) drop) where
  enqueue h key value := h.enqueue key value
  dequeue h := h.dequeue
  take h n := h.take n
  takeAll h := h.takeAll
  drain h := h.takeAll.1
  report {q l} h answer := by
    show QueueReport.mk answer q.peekKey? q.size q.isEmpty (q.size, some q.size) =
      ⟨answer, Arrivals.leastKey? l, l.length, l.isEmpty, (l.length, some l.length)⟩
    rw [h.peekKey?_eq, h.isEmpty_eq, h.size_eq]

/-- **A bucket queue is a stable priority queue.** Whether it drops duplicates or not, an empty
bucket queue answers every sequence of requests like the list of the pairs that wait, from which the
first pair among those with the smallest key is served, and to which, where duplicates are dropped,
exactly the pairs that wait at that moment are not added. -/
theorem transcript_eq_arrivals [BEq α] [EquivBEq α] (dropDuplicates : Bool)
    (requests : List (QueueRequest α)) :
    interface.transcript (empty dropDuplicates) requests =
      (Arrivals.interface dropDuplicates).transcript [] requests :=
  (simulates_arrivals dropDuplicates).transcript_eq requests (Matches.empty dropDuplicates)

/-- Keys below the offset, a duplicate, a pair that comes back, and iterators that stop early. -/
theorem transcript_eq_arrivals_below_offset :
    let requests : List (QueueRequest Char) :=
      [.enqueue 10 'a', .enqueue 4 'b', .enqueue 10 'a', .dequeue, .enqueue 0 'c', .enqueue 4 'b',
        .intoIter, .drain 1, .drainAll, .drain 2]
    EquivBEq Char ∧
      interface.transcript (empty true) requests =
        (Arrivals.interface true).transcript [] requests ∧
      (interface.transcript (empty true) requests).map QueueReport.answer =
        [.accepted true, .accepted true, .accepted false, .served (some (4, 'b')), .accepted true,
          .accepted true, .listed [(0, 'c'), (4, 'b'), (10, 'a')], .listed [(0, 'c')],
          .listed [(4, 'b'), (10, 'a')], .listed []] := by
  intro requests
  have hsame := transcript_eq_arrivals true requests
  refine ⟨inferInstance, hsame, ?_⟩
  rw [hsame]
  rfl

end BucketQueue

end Timetable
