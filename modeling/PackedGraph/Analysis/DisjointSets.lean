/-!
# Disjoint sets

A partition of the numbers below a size, changed by uniting two of its sets.  Every number points at
a smaller one of its set or, as the *root* of the set, at itself; so the root is the smallest member.
Finding a root halves the path to it: every other number on the path is moved to its grandparent.
-/

namespace PackedGraph

/-- A partition of the numbers below a size. -/
structure DisjointSets where
  /-- Where each number points. -/
  parents : Array Nat
  /-- Nobody points at a larger number. -/
  descending : ∀ i (h : i < parents.size), parents[i] ≤ i

namespace DisjointSets

/-- Every number in a set of its own. -/
def new (size : Nat) : DisjointSets := ⟨Array.range size, by simp⟩

/-- How many numbers there are. -/
def size (s : DisjointSets) : Nat := s.parents.size

/-- Where a number points; numbers beyond the size point at themselves. -/
def parent (s : DisjointSets) (node : Nat) : Nat := s.parents.getD node node

theorem parent_le (s : DisjointSets) (node : Nat) : s.parent node ≤ node := by
  unfold parent
  by_cases h : node < s.parents.size
  · simpa [Array.getD, h] using s.descending node h
  · simp [Array.getD, h]

/-- Let a number point at one that is not larger. -/
def link (s : DisjointSets) (node target : Nat) (h : target ≤ node) : DisjointSets :=
  { parents := s.parents.setIfInBounds node target
    descending := by
      intro i hi
      rw [Array.getElem_setIfInBounds (by simpa using hi)]
      split
      · omega
      · exact s.descending i (by simpa using hi) }

/-- The root of a number's set; the path to it is halved on the way. -/
def find (s : DisjointSets) (node : Nat) : Nat × DisjointSets :=
  let parent := s.parent node
  if h : parent = node then (node, s)
  else
    let grandparent := s.parent parent
    have le : grandparent ≤ parent := s.parent_le parent
    have lt : parent < node := Nat.lt_of_le_of_ne (s.parent_le node) h
    have below : grandparent < node := Nat.lt_of_le_of_lt le lt
    let halved := if grandparent = parent then s else s.link node grandparent (Nat.le_of_lt below)
    halved.find grandparent
termination_by node
decreasing_by exact below

/-- Unite the sets of two numbers; the smaller root stays one. -/
def union (s : DisjointSets) (left right : Nat) : DisjointSets :=
  let (a, s) := s.find left
  let (b, s) := s.find right
  if h : a ≤ b then s.link b a h else s.link a b (Nat.le_of_not_le h)

/-- Whether two numbers are in one set. -/
def sameSet (s : DisjointSets) (left right : Nat) : Bool × DisjointSets :=
  let (a, s) := s.find left
  let (b, s) := s.find right
  (a == b, s)

/-- The root of every number. -/
def roots (s : DisjointSets) : Array Nat :=
  ((List.range s.size).foldl
    (fun (roots, s) node =>
      let (root, s) := find s node
      (roots.push root, s))
    ((#[], s) : Array Nat × DisjointSets)).1

end DisjointSets

end PackedGraph
