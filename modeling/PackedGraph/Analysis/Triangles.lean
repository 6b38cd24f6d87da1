import PackedGraph.Graph.Triangles
import PackedGraph.Workers.Crew

/-!
# Counting triangles

Every node is asked for the triangles of which it is the smallest corner, and each of them counts for
its three corners.  The clustering coefficient of a node is the share of the pairs of its neighbours
that are joined.
-/

namespace PackedGraph

/-- How many triangles there are. -/
structure TriangleCounts where
  /-- The triangles of which each node is a corner. -/
  perNode : Array Nat
  /-- All triangles. -/
  total : Nat
  /-- The clustering coefficient of each node. -/
  clustering : Array Float
  /-- Whether the run was asked to stop; the counts are then lower bounds. -/
  terminated : Bool
  deriving Inhabited

namespace TriangleCounts

/-- Nodes that a worker claims at once. -/
def batchSize : Nat := 64

/-- The share of joined pairs among the neighbours of a node; zero where there are no pairs.  Both numbers are
words: the number of pairs of more than `2 ^ 32` neighbours wraps round. -/
def coefficient (triangles degree : Nat) : Float :=
  if degree < 2 then 0 else natToFloat (2 * triangles) / natToFloat (degree * (degree - 1))

/-- The mean of the clustering coefficients. -/
def meanClustering (t : TriangleCounts) : Float := floatMean t.clustering.toList

/-- Count a triangle for its corners. -/
def mark (counts : Array Nat) (t : Triangle) : Array Nat :=
  ((counts.modify t.a (· + 1)).modify t.b (· + 1)).modify t.c (· + 1)

/-- What a worker does at a node: its cursors and its own count, and the shared counts. -/
def visit (node : Nat) (own : TriangleFinder × Nat) (counts : Array Nat) :
    (TriangleFinder × Nat) × Array Nat :=
  let (found, finder) := own.1.trianglesOf node
  ((finder, own.2 + found.length), found.foldl mark counts)

/-- The number of all triangles and those of each node, found along a trace. -/
def ofTrace (finder : TriangleFinder) (workers : Nat) (trace : List Visit) : Nat × Array Nat :=
  let start := (List.replicate workers (finder, 0), Array.replicate finder.graph.nodeCount 0)
  let (own, counts) := trace.foldl (fun (own, counts) v => onWorker (visit v.node) v.worker own counts) start
  (own.foldl (fun total state => total + state.2) 0, counts)

/-- Count the triangles of an undirected graph without parallel relationships. -/
def compute (g : Graph) (settings : TriangleSettings) (stop : StopAfter) :
    Except Fault TriangleCounts := do
  settings.validate
  let finder ← g.triangleFinder? settings.maxDegree
  let pool ← Pool.new? settings.concurrency
  let crew := (Crew.forBatches pool g.nodeCount batchSize false
    (.new "TriangleCount" g.nodeCount 10)).handOut stop
  let (total, perNode) := ofTrace finder pool.concurrency crew.visits.toList
  return {
    perNode := perNode
    total := total
    clustering := perNode.mapIdx fun node triangles => coefficient triangles (g.degree node)
    terminated := crew.stopped }

/-- The bytes of the results per node. -/
def bytes (t : TriangleCounts) : Nat := Paged.bytes 8 t.perNode.size + Paged.bytes 8 t.clustering.size

/-- Bytes that counting takes besides the graph: the results, and for every worker three cursors with a
window each. -/
def estimate (d : Dimensions) (settings : TriangleSettings) : MemoryRange :=
  .of (Paged.bytes 8 d.nodes + Paged.bytes 8 d.nodes)
    + (MemoryRange.of (3 * windowSize * 8)).times settings.concurrency

end TriangleCounts

end PackedGraph
