/-!
# Union and find

A forest over the numbers below `n`, in which each tree is a class. Every number has a parent, and a
root is its own parent. Looking for the root of a number lets each number on the way skip its
parent; joining two trees puts the one of lower rank below the other.

* `UnionFind.find`: the root of a number, and the forest with shorter ways.
* `UnionFind.union`: two trees joined.
-/

namespace Timetable

/-- Parents and ranks of the numbers below a bound. -/
structure UnionFind where
  parents : List Nat
  ranks : List Nat

namespace UnionFind

/-- Every number below `n` is the root of a tree by itself. -/
def ofSize (n : Nat) : UnionFind := ⟨List.range n, List.replicate n 0⟩

/-- The parent of a number. A number outside the forest counts as a root. -/
def parent (u : UnionFind) (x : Nat) : Nat := u.parents.getD x x

def rank (u : UnionFind) (x : Nat) : Nat := u.ranks.getD x 0

/-- Lets a number skip its parent. -/
def halve (u : UnionFind) (x : Nat) : UnionFind :=
  { u with parents := u.parents.set x (u.parent (u.parent x)) }

/-- Walks up from a number for at most so many steps, letting the numbers on the way skip their
parents. -/
def climb (u : UnionFind) (x : Nat) : Nat → Nat × UnionFind
  | 0 => (x, u)
  | steps + 1 =>
    if u.parent x = x then (x, u)
    else
      let u' := u.halve x
      u'.climb (u'.parent x) steps

/-- The root of a number. A way to a root has no more steps than the forest has numbers. -/
def find (u : UnionFind) (x : Nat) : Nat × UnionFind := u.climb x u.parents.length

/-- Puts the tree of root `a` below that of root `b`, or the other way round where the rank of `a`
is not the lower one; between equal ranks that of `a` grows. -/
def link (u : UnionFind) (a b : Nat) : UnionFind :=
  if a = b then u
  else if u.rank a < u.rank b then { u with parents := u.parents.set a b }
  else if u.rank b < u.rank a then { u with parents := u.parents.set b a }
  else ⟨u.parents.set b a, u.ranks.set a (u.rank a + 1)⟩

def union (u : UnionFind) (x y : Nat) : UnionFind :=
  let (a, u) := u.find x
  let (b, u) := u.find y
  u.link a b

end UnionFind

end Timetable
