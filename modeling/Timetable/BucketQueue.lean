/-!
# Bucket queues

A priority queue over small numbers, such as the indices of slots. Values wait in one bucket per
key, first come first served within a bucket, and the smallest key is served first. A queue that
drops duplicates refuses a pair that is already waiting; a pair that has been served may come back.

The buckets stand for consecutive keys. `offset` is the key of the first of them, and moves when a
key below it arrives or when empty buckets in front are dropped.

* `BucketQueue.enqueue`, `BucketQueue.dequeue`: the two steps; `BucketQueue.peekKey?` looks ahead.
* `BucketQueue.take`, `BucketQueue.drain`: repeated serving.
-/

namespace Timetable

/-- Values waiting under numbers, the smallest number to be served first. -/
structure BucketQueue (α : Type) where
  /-- One bucket for each key from `offset` on. -/
  buckets : List (List α)
  /-- The key of the first bucket. -/
  offset : Nat
  /-- How many values wait. -/
  size : Nat
  /-- The waiting pairs, where duplicates are dropped. -/
  pending : Option (List (Nat × α))

namespace BucketQueue

variable {α : Type}

def empty (dropDuplicates : Bool) : BucketQueue α :=
  ⟨[], 0, 0, if dropDuplicates then some [] else none⟩

/-- Whether a waiting pair is refused. -/
def dropsDuplicates (q : BucketQueue α) : Bool := q.pending.isSome

def isEmpty (q : BucketQueue α) : Bool := q.size == 0

/-- The least and the greatest number of values that a draining iterator announces. -/
def sizeHint (q : BucketQueue α) : Nat × Option Nat := (q.size, some q.size)

/-- The value put at the end of the bucket `index` places on; missing buckets are made. -/
def addToBucket (value : α) : Nat → List (List α) → List (List α)
  | 0, [] => [[value]]
  | 0, bucket :: rest => (bucket ++ [value]) :: rest
  | index + 1, [] => [] :: addToBucket value index []
  | index + 1, bucket :: rest => bucket :: addToBucket value index rest

/-- The value put under the key. The first value of all fixes the offset; a key below the offset
gets empty buckets in front. -/
def store (q : BucketQueue α) (key : Nat) (value : α) : BucketQueue α :=
  let offset := if q.buckets.isEmpty then key else q.offset
  let front := List.replicate (offset - key) []
  { q with
    buckets := addToBucket value (key - min key offset) (front ++ q.buckets)
    offset := min key offset
    size := q.size + 1 }

/-- The smallest key under which something waits. -/
def peekKey? (q : BucketQueue α) : Option Nat :=
  (q.buckets.findIdx? fun bucket => !bucket.isEmpty).map (· + q.offset)

def dropEmpty (q : BucketQueue α) : BucketQueue α :=
  let front := q.buckets.takeWhile List.isEmpty
  { q with buckets := q.buckets.drop front.length, offset := q.offset + front.length }

variable [BEq α]

/-- Puts a value under a key. The answer is false where the pair is refused as a duplicate. -/
def enqueue (q : BucketQueue α) (key : Nat) (value : α) : Bool × BucketQueue α :=
  match q.pending with
  | none => (true, q.store key value)
  | some pairs =>
    if pairs.contains (key, value) then (false, q)
    else (true, { q.store key value with pending := some ((key, value) :: pairs) })

/-- Serves the value that has waited longest under the smallest key. The buckets are given up when
the last value leaves. -/
def dequeue (q : BucketQueue α) : Option (Nat × α) × BucketQueue α :=
  let q := q.dropEmpty
  match q.buckets with
  | (value :: bucket) :: rest =>
    (some (q.offset, value),
      { q with
        buckets := if q.size = 1 then [] else bucket :: rest
        size := q.size - 1
        pending := q.pending.map fun pairs => pairs.erase (q.offset, value) })
  | _ => (none, q)

/-- Serves up to `n` values, in order. -/
def take (q : BucketQueue α) : Nat → List (Nat × α) × BucketQueue α
  | 0 => ([], q)
  | n + 1 =>
    match q.dequeue with
    | (none, q') => ([], q')
    | (some served, q') =>
      let (later, q'') := q'.take n
      (served :: later, q'')

def drain (q : BucketQueue α) : List (Nat × α) := (q.take q.size).1

end BucketQueue

end Timetable
