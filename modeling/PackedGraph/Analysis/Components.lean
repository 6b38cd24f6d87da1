import PackedGraph.Analysis.DisjointSets
import PackedGraph.Graph.Basic
import PackedGraph.Workers.Crew

/-!
# Connected components

Two nodes are in one component if a way of relationships joins them, their directions left aside.  A
component is represented by its smallest node.
-/

namespace PackedGraph

/-- The component of every node. -/
structure Components where
  /-- The representative of each node's component. -/
  representatives : Array Nat
  /-- Whether the run was asked to stop; components may then be split. -/
  terminated : Bool
  deriving Inhabited

namespace Components

/-- How many components there are: each has one representative. -/
def count (c : Components) : Nat :=
  (c.representatives.toList.zipIdx.filter fun (representative, node) => representative == node).length

/-- Unite a node with its targets. -/
def uniteTargets (g : Graph) (sets : DisjointSets) (node : Nat) : DisjointSets :=
  (g.targets node).foldl (fun sets target => sets.union node target) sets

/-- The sets that a trace unites. -/
def setsOfTrace (g : Graph) (trace : List Visit) : DisjointSets :=
  trace.foldl (fun sets v => uniteTargets g sets v.node) (.new g.nodeCount)

/-- The components of a graph. -/
def compute (g : Graph) (settings : ComponentSettings) (stop : StopAfter) : Except Fault Components := do
  settings.validate
  let pool ← Pool.new? settings.concurrency
  let crew := (Crew.forPartitions pool (rangePartition g.nodeCount settings.concurrency) false
    (.new "WCC" g.nodeCount 10)).handOut stop
  return {
    representatives := (setsOfTrace g crew.visits.toList).roots
    terminated := crew.stopped }

/-- The bytes of the result. -/
def bytes (c : Components) : Nat := Paged.bytes 8 c.representatives.size

/-- Bytes that finding components takes besides the graph: the sets and the result. -/
def estimate (d : Dimensions) : MemoryRange := .of (Paged.bytes 8 d.nodes + Paged.bytes 8 d.nodes)

end Components

end PackedGraph
