import PackedGraph.Ingest.Policy
import PackedGraph.Topology.Cursor

/-!
# One type of relationships

The topology of a relationship type is a compressed adjacency.  Where it has weights they lie in one
sequence, the weights of a node behind those of the node before, in the order of the node's targets;
so the weight of a target is found at its place in the node's run.
-/

namespace PackedGraph

/-- Weights beside an adjacency. -/
structure Weights where
  /-- One weight per relationship. -/
  values : Paged Float
  /-- Where the weights of each node begin. -/
  offsets : Paged Nat
  deriving Inhabited

namespace Weights

/-- Begin each node's weights behind those of the nodes before it. -/
def ofDegrees (values : Array Float) (degrees : Array Nat) : Weights :=
  { values := .ofArray values
    offsets := .ofArray (degrees.foldl
      (fun (offsets, total) degree => (offsets.push total, total + degree)) (#[], 0)).1 }

/-- The weight at a place counted from the beginning of a node's weights.  A place behind the node's
last one is in the weights of a later node. -/
def get? (w : Weights) (node index : Nat) : Option Float :=
  (w.offsets.get? node).bind fun offset => w.values.get? (offset + index)

/-- The bytes of the weights. -/
def bytes (w : Weights) : Nat := Paged.bytes 8 w.values.size + Paged.bytes 8 w.offsets.size

end Weights

/-- The relationships of one type. -/
structure Relationships where
  /-- The targets of every node. -/
  adjacency : Adjacency
  /-- Their weights, if there are any. -/
  weights : Option Weights
  /-- The direction in which they are stored. -/
  orientation : Orientation
  /-- Whether some node has the same target twice. -/
  parallel : Bool
  deriving Inhabited

namespace Relationships

/-- The targets of a node, ascending. -/
def targets (r : Relationships) (node : Nat) : List Nat :=
  ((Cursor.unbound [r.adjacency]).rebind node).toList

/-- The targets of a node with their weights; a fallback where there are none. -/
def weighted (r : Relationships) (node : Nat) (fallback : Float) : List (Nat × Float) :=
  match r.weights with
  | none => (r.targets node).map (·, fallback)
  | some weights =>
    (r.targets node).zipIdx.map fun (target, index) => (target, (weights.get? node index).getD fallback)

/-- The bytes of targets and weights. -/
def bytes (r : Relationships) : Nat :=
  r.adjacency.bytes + match r.weights with
    | some weights => weights.bytes
    | none => 0

/-- Bounds for the bytes of one type. -/
def estimate (d : Dimensions) (hasWeights : Bool) : MemoryRange :=
  if hasWeights then
    Adjacency.estimate d + .of (Paged.bytes 8 d.relationships + Paged.bytes 8 d.nodes)
  else Adjacency.estimate d

end Relationships

end PackedGraph
