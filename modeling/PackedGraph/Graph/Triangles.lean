import PackedGraph.Graph.Basic

/-!
# Enumerating triangles

Every triangle is found once, from its smallest node: for each larger neighbour `b` of a node `a` the
targets behind `b` that both have in common close a triangle.  Nodes whose degree exceeds a bound take
part in no triangle.
-/

namespace PackedGraph

/-- A triangle, its corners ascending. -/
structure Triangle where
  /-- The smallest corner. -/
  a : Nat
  /-- The corner in the middle. -/
  b : Nat
  /-- The largest corner. -/
  c : Nat
  deriving Repr, DecidableEq, Inhabited

/-- What is needed to enumerate triangles: a graph, a bound, and three cursors that are used again for
every node. -/
structure TriangleFinder where
  /-- The graph. -/
  graph : Graph
  /-- Nodes with a higher degree are left out. -/
  maxDegree : Nat
  /-- Runs through the neighbours of the smallest corner. -/
  outer : Cursor
  /-- Looks for the third corner among the neighbours of the first. -/
  first : Cursor
  /-- Looks for the third corner among the neighbours of the second. -/
  second : Cursor
  deriving Inhabited

/-- Triangles are defined where every relationship is stored in both directions and only once. -/
def Graph.triangleFinder? (g : Graph) (maxDegree : Nat) : Except Fault TriangleFinder :=
  if !g.isUndirected then
    .error (.unsupportedGraph "relationship intersection requires an undirected graph")
  else if g.parallel then
    .error (.unsupportedGraph ("relationship intersection requires a graph without parallel "
      ++ "relationships; use an aggregation other than NONE"))
  else .ok ⟨g, maxDegree, g.rawCursor, g.rawCursor, g.rawCursor⟩

namespace TriangleFinder

/-- Whether a node may be a corner. -/
def admits (f : TriangleFinder) (node : Nat) : Bool := decide (f.graph.degree node ≤ f.maxDegree)

/-- The triangles whose two smaller corners are given. -/
def close (f : TriangleFinder) (a b : Nat) : List Triangle × TriangleFinder :=
  let first := f.first.rebind a
  let second := f.second.rebind b
  let (c, first) := first.skipUntil b
  let (d, second) := second.skipUntil b
  let (corners, first, second) := Cursor.meet (first.remaining + second.remaining + 2) c d first second #[]
  ((corners.toList.filter f.admits).map fun c => ⟨a, b, c⟩, { f with first := first, second := second })

/-- The triangles of a smallest corner, from a larger neighbour on; the steps bound the neighbours. -/
def closeAll (a : Nat) : Nat → Option Nat → TriangleFinder → Array Triangle →
    Array Triangle × TriangleFinder
  | steps + 1, some b, f, found =>
    let (triangles, f) := if f.admits b then f.close a b else ([], f)
    let (next, outer) := f.outer.next
    closeAll a steps next { f with outer := outer } (found ++ triangles)
  | _, _, f, found => (found, f)

/-- All triangles with a given smallest corner. -/
def trianglesOf (f : TriangleFinder) (a : Nat) : List Triangle × TriangleFinder :=
  if !f.admits a then ([], f)
  else
    let (b, outer) := (f.outer.rebind a).skipUntil a
    let (found, f) := closeAll a (outer.remaining + 1) b { f with outer := outer } #[]
    (found.toList, f)

end TriangleFinder

end PackedGraph
