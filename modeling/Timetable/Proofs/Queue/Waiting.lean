import Timetable.BucketQueue

/-!
# What waits in a bucket queue

A queue is seen as a function that gives for each key the values that wait under it, in the order in
which they came. An arriving value goes to the end under its key, and the next value to be served is
the first one under the smallest key under which something waits. The layout of the buckets, with
the offset and the empty buckets in front, is not seen.

* `bucketAt`, `BucketQueue.waitingAt`: the view.
* `BucketQueue.Sound`: the size counts what waits, and the record of pairs is exact.
* `BucketQueue.Sound.enqueue_of_mem`, `BucketQueue.Sound.enqueue_of_not_mem`: a value goes to the
  end, unless its pair is a duplicate.
* `BucketQueue.waitingAt_of_dequeue_none`, `BucketQueue.Sound.dequeue_some`: what is served.
-/

namespace Timetable

variable {α : Type}

/-- The values in the bucket of a key, when the first bucket is that of the key `offset`. -/
def bucketAt (offset : Nat) (buckets : List (List α)) (key : Nat) : List α :=
  if offset ≤ key then (buckets[key - offset]?).getD [] else []

/-! ### Lists of buckets -/

@[simp]
theorem bucketAt_nil (offset key : Nat) : bucketAt offset ([] : List (List α)) key = [] := by
  rw [bucketAt]
  split <;> rfl

theorem bucketAt_cons (offset : Nat) (bucket : List α) (rest : List (List α)) (key : Nat) :
    bucketAt offset (bucket :: rest) key =
      if key = offset then bucket else bucketAt (offset + 1) rest key := by
  rw [bucketAt, bucketAt]
  by_cases h : key = offset
  · rw [if_pos (Nat.le_of_eq h.symm), if_pos h, h, Nat.sub_self]
    rfl
  · rw [if_neg h]
    by_cases hlt : offset + 1 ≤ key
    · have hsub : key - offset = key - (offset + 1) + 1 := by omega
      rw [if_pos (by omega), if_pos hlt, hsub]
      rfl
    · rw [if_neg (by omega), if_neg hlt]

/-- Empty buckets in front make no difference. -/
theorem bucketAt_replicate (offset n : Nat) (buckets : List (List α)) (key : Nat) :
    bucketAt offset (List.replicate n [] ++ buckets) key = bucketAt (offset + n) buckets key := by
  induction n generalizing offset with
  | zero => rfl
  | succ n ih =>
    rw [List.replicate_succ, List.cons_append, bucketAt_cons, ih, Nat.add_assoc, Nat.add_comm 1 n]
    split
    · rename_i h
      rw [bucketAt, if_neg (by omega)]
    · rfl

/-- Empty buckets at the front can be dropped. -/
theorem bucketAt_drop_takeWhile (offset : Nat) (buckets : List (List α)) (key : Nat) :
    bucketAt (offset + (buckets.takeWhile List.isEmpty).length)
      (buckets.drop (buckets.takeWhile List.isEmpty).length) key = bucketAt offset buckets key := by
  induction buckets generalizing offset with
  | nil => simp
  | cons bucket rest ih =>
    rw [List.takeWhile_cons]
    cases bucket with
    | cons value bucket => rfl
    | nil =>
      show bucketAt (offset + ((rest.takeWhile List.isEmpty).length + 1))
        (rest.drop (rest.takeWhile List.isEmpty).length) key = _
      rw [Nat.add_comm _ 1, ← Nat.add_assoc, ih, bucketAt_cons]
      split
      · rename_i h
        rw [bucketAt, if_neg (by omega)]
      · rfl

theorem bucketAt_eq_nil {buckets : List (List α)} (h : buckets.flatten = []) (offset key : Nat) :
    bucketAt offset buckets key = [] := by
  rw [bucketAt]
  split
  · cases hget : buckets[key - offset]? with
    | none => rfl
    | some bucket => exact List.flatten_eq_nil_iff.1 h bucket (List.mem_of_getElem? hget)
  · rfl

namespace BucketQueue

theorem bucketAt_addToBucket (value : α) (offset index : Nat) (buckets : List (List α))
    (key : Nat) : bucketAt offset (addToBucket value index buckets) key =
      if key = offset + index then bucketAt offset buckets key ++ [value]
      else bucketAt offset buckets key := by
  induction index generalizing offset buckets with
  | zero =>
    cases buckets with
    | nil =>
      rw [addToBucket, bucketAt_cons, bucketAt_nil, bucketAt_nil]
      rfl
    | cons bucket rest =>
      rw [addToBucket, bucketAt_cons, bucketAt_cons]
      show _ = if key = offset then _ else _
      split <;> rfl
  | succ index ih =>
    have hkey : key = offset → key ≠ offset + (index + 1) := by omega
    cases buckets with
    | nil =>
      rw [addToBucket, bucketAt_cons, ih, bucketAt_nil, bucketAt_nil, Nat.add_assoc,
        Nat.add_comm 1 index]
      split
      · rename_i h
        rw [if_neg (hkey h)]
      · rfl
    | cons bucket rest =>
      rw [addToBucket, bucketAt_cons, bucketAt_cons, ih, Nat.add_assoc, Nat.add_comm 1 index]
      split
      · rename_i h
        rw [if_neg (hkey h)]
      · rfl

theorem length_flatten_addToBucket (value : α) (index : Nat) (buckets : List (List α)) :
    (addToBucket value index buckets).flatten.length = buckets.flatten.length + 1 := by
  induction index generalizing buckets with
  | zero =>
    cases buckets with
    | nil => rfl
    | cons bucket rest =>
      simp only [addToBucket, List.flatten_cons, List.length_append, List.length_singleton]
      omega
  | succ index ih =>
    cases buckets with
    | nil =>
      rw [addToBucket, List.flatten_cons, List.length_append, ih]
      rfl
    | cons bucket rest =>
      rw [addToBucket, List.flatten_cons, List.length_append, ih, List.flatten_cons,
        List.length_append]
      rfl

/-! ### The view -/

/-- The values that wait under a key, in the order in which they will be served. -/
def waitingAt (q : BucketQueue α) (key : Nat) : List α := bucketAt q.offset q.buckets key

/-- The size counts what waits. Where duplicates are dropped nothing waits twice, and the record
holds exactly the pairs that wait. -/
structure Sound (q : BucketQueue α) : Prop where
  size_eq : q.size = q.buckets.flatten.length
  nodup : ∀ pairs ∈ q.pending, pairs.Nodup
  nodup_waitingAt : q.dropsDuplicates = true → ∀ key, (q.waitingAt key).Nodup
  mem_pending : ∀ pairs ∈ q.pending, ∀ key value,
    (key, value) ∈ pairs ↔ value ∈ q.waitingAt key

theorem waitingAt_empty (drop : Bool) (key : Nat) :
    (empty drop : BucketQueue α).waitingAt key = [] := bucketAt_nil _ _

theorem sound_empty (drop : Bool) : (empty drop : BucketQueue α).Sound where
  size_eq := rfl
  nodup pairs h := by
    cases drop <;> cases h
    exact List.nodup_nil
  nodup_waitingAt _ key := by
    rw [waitingAt_empty]
    exact List.nodup_nil
  mem_pending pairs h key value := by
    rw [waitingAt_empty]
    cases drop <;> cases h
    simp

theorem waitingAt_store (q : BucketQueue α) (key : Nat) (value : α) (k : Nat) :
    (q.store key value).waitingAt k =
      if k = key then q.waitingAt k ++ [value] else q.waitingAt k := by
  obtain ⟨offset, hoffset⟩ : ∃ n, n = if q.buckets.isEmpty then key else q.offset := ⟨_, rfl⟩
  have hview : bucketAt offset q.buckets k = q.waitingAt k := by
    cases hb : q.buckets with
    | nil => rw [waitingAt, hb, bucketAt_nil, bucketAt_nil]
    | cons bucket rest =>
      rw [hb] at hoffset
      rw [waitingAt, hb, hoffset]
      rfl
  have hkey : min key offset + (key - min key offset) = key := by omega
  have hfront : min key offset + (offset - key) = offset := by omega
  show bucketAt (min key _) (addToBucket value (key - min key _)
    (List.replicate (_ - key) [] ++ q.buckets)) k = _
  rw [← hoffset, bucketAt_addToBucket, bucketAt_replicate, hkey, hfront, hview]

theorem size_store {q : BucketQueue α} (h : q.size = q.buckets.flatten.length) (key : Nat)
    (value : α) : (q.store key value).size = (q.store key value).buckets.flatten.length := by
  show q.size + 1 = (addToBucket value _ (List.replicate _ [] ++ q.buckets)).flatten.length
  rw [length_flatten_addToBucket, List.flatten_append, List.flatten_replicate_nil,
    List.nil_append, h]

theorem waitingAt_dropEmpty (q : BucketQueue α) (key : Nat) :
    q.dropEmpty.waitingAt key = q.waitingAt key := bucketAt_drop_takeWhile _ _ _

/-- After the empty buckets in front have been dropped, the first bucket is not empty. -/
theorem dropEmpty_ne_nil_cons (q : BucketQueue α) (rest : List (List α)) :
    q.dropEmpty.buckets ≠ [] :: rest := by
  show q.buckets.drop (q.buckets.takeWhile List.isEmpty).length ≠ [] :: rest
  induction q.buckets with
  | nil => exact fun h => nomatch h
  | cons bucket buckets ih =>
    rw [List.takeWhile_cons]
    cases bucket with
    | nil => exact ih
    | cons value bucket => exact fun h => nomatch h

theorem flatten_dropEmpty (q : BucketQueue α) :
    q.dropEmpty.buckets.flatten = q.buckets.flatten := by
  show (q.buckets.drop (q.buckets.takeWhile List.isEmpty).length).flatten = q.buckets.flatten
  induction q.buckets with
  | nil => rfl
  | cons bucket buckets ih =>
    rw [List.takeWhile_cons]
    cases bucket with
    | nil => exact ih
    | cons value bucket => rfl

/-! ### The steps -/

/-- The queue after a value has arrived that is no duplicate. -/
def arrive (q : BucketQueue α) (key : Nat) (value : α) : BucketQueue α :=
  { q.store key value with pending := q.pending.map ((key, value) :: ·) }

theorem waitingAt_arrive (q : BucketQueue α) (key : Nat) (value : α) (k : Nat) :
    (q.arrive key value).waitingAt k =
      if k = key then q.waitingAt k ++ [value] else q.waitingAt k := waitingAt_store q key value k

theorem Sound.arrive {q : BucketQueue α} (h : q.Sound) {key : Nat} {value : α}
    (hfresh : q.dropsDuplicates = true → value ∉ q.waitingAt key) : (q.arrive key value).Sound where
  size_eq := size_store h.size_eq key value
  nodup pairs' hpairs' := by
    obtain ⟨pairs, hpairs, rfl⟩ := Option.map_eq_some_iff.1 hpairs'
    refine List.nodup_cons.2 ⟨fun hmem => ?_, h.nodup pairs hpairs⟩
    have hd : q.dropsDuplicates = true := Option.isSome_iff_exists.2 ⟨pairs, hpairs⟩
    exact hfresh hd ((h.mem_pending pairs hpairs key value).1 hmem)
  nodup_waitingAt hd k := by
    have hd' : q.dropsDuplicates = true := by
      rwa [dropsDuplicates, BucketQueue.arrive, Option.isSome_map] at hd
    rw [waitingAt_arrive]
    split
    · rename_i hk
      refine List.nodup_append.2 ⟨h.nodup_waitingAt hd' k, List.pairwise_singleton _ _, ?_⟩
      intro v hv w hw heq
      subst heq
      rw [List.mem_singleton.1 hw, hk] at hv
      exact hfresh hd' hv
    · exact h.nodup_waitingAt hd' k
  mem_pending pairs' hpairs' k v := by
    obtain ⟨pairs, hpairs, rfl⟩ := Option.map_eq_some_iff.1 hpairs'
    rw [List.mem_cons, h.mem_pending pairs hpairs, waitingAt_arrive, Prod.mk.injEq]
    by_cases hk : k = key
    · rw [if_pos hk, List.mem_append, List.mem_singleton, or_comm]
      simp [hk]
    · rw [if_neg hk]
      simp [hk]

/-- What is served is the first value under the smallest key. It is gone, and everything else still
waits. -/
structure Serves (q : BucketQueue α) (key : Nat) (value : α) (q' : BucketQueue α) : Prop where
  least : ∀ k < key, q.waitingAt k = []
  first : q.waitingAt key = value :: q'.waitingAt key
  others : ∀ k, k ≠ key → q'.waitingAt k = q.waitingAt k
  size_eq : q.size = q'.size + 1
  dropsDuplicates_eq : q'.dropsDuplicates = q.dropsDuplicates
  sound : q'.Sound

namespace Serves

variable {q q' : BucketQueue α} {key : Nat} {value : α}

theorem mem_waitingAt (h : q.Serves key value q') {k : Nat} {v : α} :
    v ∈ q.waitingAt k ↔ k = key ∧ v = value ∨ v ∈ q'.waitingAt k := by
  by_cases hk : k = key
  · rw [hk, h.first, List.mem_cons]
    simp
  · rw [h.others k hk]
    simp [hk]

theorem le_of_mem (h : q.Serves key value q') {k : Nat} {v : α} (hv : v ∈ q.waitingAt k) :
    key ≤ k := by
  refine Nat.le_of_not_lt fun hlt => ?_
  rw [h.least k hlt] at hv
  cases hv

/-- What has been served does not wait any more, where duplicates are dropped. -/
theorem not_mem (h : q.Serves key value q') (hq : q.Sound) (hd : q.dropsDuplicates = true) :
    value ∉ q'.waitingAt key := by
  have hnodup := hq.nodup_waitingAt hd key
  rw [h.first, List.nodup_cons] at hnodup
  exact hnodup.1

end Serves

section Steps

variable [BEq α]

theorem dropsDuplicates_enqueue (q : BucketQueue α) (key : Nat) (value : α) :
    (q.enqueue key value).2.dropsDuplicates = q.dropsDuplicates := by
  rw [BucketQueue.enqueue]
  split
  · rfl
  · rename_i pairs hpairs
    split <;> simp [dropsDuplicates, hpairs]

/-- Nothing is served only when nothing waits. -/
theorem waitingAt_of_dequeue_none {q q' : BucketQueue α} (hq : q.dequeue = (none, q')) (key : Nat) :
    q.waitingAt key = [] := by
  rw [dequeue] at hq
  rw [← waitingAt_dropEmpty, waitingAt]
  cases hb : q.dropEmpty.buckets with
  | nil => rw [bucketAt_nil]
  | cons bucket rest =>
    cases bucket with
    | nil => exact absurd hb (q.dropEmpty_ne_nil_cons rest)
    | cons value bucket =>
      rw [hb] at hq
      cases hq

/-- A value is served from the first bucket that is not empty. -/
theorem dequeue_eq_some {q q' : BucketQueue α} {key : Nat} {value : α}
    (hq : q.dequeue = (some (key, value), q')) : ∃ bucket rest,
      q.dropEmpty.buckets = (value :: bucket) :: rest ∧ q.dropEmpty.offset = key ∧
        q' = ⟨if q.size = 1 then [] else bucket :: rest, key, q.size - 1,
          q.pending.map (List.erase · (key, value))⟩ := by
  rw [dequeue] at hq
  cases hb : q.dropEmpty.buckets with
  | nil =>
    rw [hb] at hq
    cases hq
  | cons bucket rest =>
    rw [hb] at hq
    cases bucket with
    | nil => cases hq
    | cons v bucket =>
      cases hq
      exact ⟨bucket, rest, rfl, rfl, rfl⟩

/-- Below the key that is served nothing waits. -/
theorem waitingAt_of_lt {q q' : BucketQueue α} {key : Nat} {value : α}
    (hq : q.dequeue = (some (key, value), q')) {k : Nat} (hk : k < key) : q.waitingAt k = [] := by
  obtain ⟨bucket, rest, -, rfl, -⟩ := dequeue_eq_some hq
  rw [← waitingAt_dropEmpty, waitingAt, bucketAt, if_neg (Nat.not_le.2 hk)]

theorem size_dequeue {q q' : BucketQueue α} (h : q.size = q.buckets.flatten.length) {key : Nat}
    {value : α} (hq : q.dequeue = (some (key, value), q')) :
    q.size = q'.size + 1 ∧ q'.size = q'.buckets.flatten.length := by
  obtain ⟨bucket, rest, hb, -, rfl⟩ := dequeue_eq_some hq
  have hsize : q.size = (bucket :: rest).flatten.length + 1 := by
    rw [h, ← flatten_dropEmpty, hb]
    rfl
  dsimp only
  constructor
  · omega
  · split
    · rename_i hone
      rw [hone]
      rfl
    · omega

/-- One value has left the front under its key. That the buckets are given up when they have become
empty is not seen. -/
theorem waitingAt_dequeue {q q' : BucketQueue α} (h : q.size = q.buckets.flatten.length)
    {key : Nat} {value : α} (hq : q.dequeue = (some (key, value), q')) (k : Nat) :
    q.waitingAt k = if k = key then value :: q'.waitingAt k else q'.waitingAt k := by
  obtain ⟨hsize, -⟩ := size_dequeue h hq
  have hflatten := h
  obtain ⟨bucket, rest, hb, hkey, rfl⟩ := dequeue_eq_some hq
  rw [← flatten_dropEmpty, hb, List.flatten_cons, List.cons_append, List.length_cons,
    ← List.flatten_cons] at hflatten
  have hrest : bucketAt key (if q.size = 1 then [] else bucket :: rest) k =
      bucketAt key (bucket :: rest) k := by
    split
    · rename_i hone
      have hnil : (bucket :: rest).flatten = [] := List.eq_nil_of_length_eq_zero (by omega)
      rw [bucketAt_nil, bucketAt_eq_nil hnil]
    · rfl
  rw [← waitingAt_dropEmpty, waitingAt, waitingAt, hb, hkey]
  dsimp only
  rw [hrest, bucketAt_cons, bucketAt_cons]
  by_cases hk : k = key
  · rw [if_pos hk, if_pos hk, if_pos hk]
  · rw [if_neg hk, if_neg hk, if_neg hk]

variable [LawfulBEq α]

/-- A pair that is waiting is refused as a duplicate. -/
theorem Sound.enqueue_of_mem {q : BucketQueue α} (h : q.Sound) {key : Nat} {value : α}
    (hd : q.dropsDuplicates = true) (hmem : value ∈ q.waitingAt key) :
    q.enqueue key value = (false, q) := by
  obtain ⟨pairs, hpairs⟩ := Option.isSome_iff_exists.1 hd
  have hcontains : pairs.contains (key, value) = true :=
    List.contains_iff_mem.2 ((h.mem_pending pairs hpairs key value).2 hmem)
  rw [enqueue, hpairs]
  exact if_pos hcontains

theorem Sound.enqueue_of_not_mem {q : BucketQueue α} (h : q.Sound) {key : Nat} {value : α}
    (hfresh : q.dropsDuplicates = true → value ∉ q.waitingAt key) :
    q.enqueue key value = (true, q.arrive key value) := by
  obtain ⟨buckets, offset, size, pending⟩ := q
  cases pending with
  | none => rfl
  | some pairs =>
    refine if_neg fun hcontains => hfresh rfl ?_
    exact (h.mem_pending pairs rfl key value).1 (List.contains_iff_mem.1 hcontains)

theorem Sound.enqueue {q : BucketQueue α} (h : q.Sound) (key : Nat) (value : α) :
    (q.enqueue key value).2.Sound := by
  by_cases hmem : q.dropsDuplicates = true ∧ value ∈ q.waitingAt key
  · rw [h.enqueue_of_mem hmem.1 hmem.2]
    exact h
  · have hfresh := not_and.1 hmem
    rw [h.enqueue_of_not_mem hfresh]
    exact h.arrive hfresh

/-- What waits after a value has been put in, be it refused or not. -/
theorem Sound.mem_waitingAt_enqueue {q : BucketQueue α} (h : q.Sound) {key k : Nat} {value v : α} :
    v ∈ (q.enqueue key value).2.waitingAt k ↔ v ∈ q.waitingAt k ∨ k = key ∧ v = value := by
  by_cases hmem : q.dropsDuplicates = true ∧ value ∈ q.waitingAt key
  · rw [h.enqueue_of_mem hmem.1 hmem.2]
    refine (or_iff_left_of_imp ?_).symm
    intro hx
    obtain ⟨rfl, rfl⟩ := hx
    exact hmem.2
  · rw [h.enqueue_of_not_mem (not_and.1 hmem)]
    show v ∈ (q.arrive key value).waitingAt k ↔ _
    rw [waitingAt_arrive]
    by_cases hk : k = key
    · rw [if_pos hk, List.mem_append, List.mem_singleton]
      simp [hk]
    · rw [if_neg hk]
      simp [hk]

theorem Sound.dequeue {q q' : BucketQueue α} (h : q.Sound) {key : Nat} {value : α}
    (hq : q.dequeue = (some (key, value), q')) : q'.Sound := by
  have hview := waitingAt_dequeue h.size_eq hq
  have hsize := (size_dequeue h.size_eq hq).2
  have hfirst : q.waitingAt key = value :: q'.waitingAt key := by rw [hview, if_pos rfl]
  obtain ⟨bucket, rest, -, -, hq'⟩ := dequeue_eq_some hq
  have hpending : q'.pending = q.pending.map (List.erase · (key, value)) := by rw [hq']
  refine ⟨hsize, fun pairs' hpairs' => ?_, fun hd k => ?_, fun pairs' hpairs' k v => ?_⟩
  · rw [hpending] at hpairs'
    obtain ⟨pairs, hpairs, rfl⟩ := Option.map_eq_some_iff.1 hpairs'
    exact (h.nodup pairs hpairs).erase _
  · rw [dropsDuplicates, hpending, Option.isSome_map] at hd
    have hnodup := h.nodup_waitingAt hd k
    rw [hview] at hnodup
    split at hnodup
    · exact (List.nodup_cons.1 hnodup).2
    · exact hnodup
  · rw [hpending] at hpairs'
    obtain ⟨pairs, hpairs, rfl⟩ := Option.map_eq_some_iff.1 hpairs'
    have hnodup := h.nodup_waitingAt (Option.isSome_iff_exists.2 ⟨pairs, hpairs⟩) key
    rw [hfirst, List.nodup_cons] at hnodup
    rw [(h.nodup pairs hpairs).mem_erase_iff, h.mem_pending pairs hpairs, hview, ne_eq,
      Prod.mk.injEq]
    by_cases hk : k = key
    · rw [if_pos hk, hk, List.mem_cons]
      constructor
      · intro hx
        rcases hx with ⟨hne, rfl | hv⟩
        · exact absurd ⟨rfl, rfl⟩ hne
        · exact hv
      · intro hv
        exact ⟨fun heq => hnodup.1 (heq.2 ▸ hv), .inr hv⟩
    · rw [if_neg hk]
      simp [hk]

theorem Sound.dequeue_some {q q' : BucketQueue α} (h : q.Sound) {key : Nat} {value : α}
    (hq : q.dequeue = (some (key, value), q')) : q.Serves key value q' where
  least k hk := waitingAt_of_lt hq hk
  first := by rw [waitingAt_dequeue h.size_eq hq, if_pos rfl]
  others k hk := by rw [waitingAt_dequeue h.size_eq hq, if_neg hk]
  size_eq := (size_dequeue h.size_eq hq).1
  dropsDuplicates_eq := by
    obtain ⟨bucket, rest, -, -, rfl⟩ := dequeue_eq_some hq
    rw [dropsDuplicates, dropsDuplicates, Option.isSome_map]
  sound := h.dequeue hq

end Steps

end BucketQueue

end Timetable
