import PackedGraph.EdgeList.Reading

/-!
# Loading a graph from an edge list

The nodes are the endpoints of the edges.  Edges are taken in chunk by chunk, each chunk through a
batch of its own.  How many there are bounds the graph in advance, so loading can be refused before it
begins.
-/

namespace PackedGraph

namespace EdgeList

/-- The edges in chunks of one size; the last may be shorter. -/
def chunks (list : EdgeList) (size : Nat) : List (List Edge) :=
  let edges := list.edges.toArray
  (tiles edges.size (max size 1)).map fun p => (edges.extract p.start p.stop).toList

/-- The nodes: all endpoints. -/
def nodes (list : EdgeList) : IdMap :=
  (list.edges.foldl (fun (ids : IdCollector) e => (ids.add e.source).add e.target) {}).build

/-- Take in a chunk through a fresh batch, which then hands over what it has. -/
def takeIn (intake : Intake) (chunk : List Edge) : Except Fault Intake := do
  let intake ← intake.callAll (chunk.map fun e => .addTo 0 e.source e.target (some e.weight))
  return intake.flush 0

/-- The graph of an edge list. -/
def load (list : EdgeList) (settings : RelationshipSettings) (chunkSize : Nat) : Except Failure Graph := do
  let nodes := list.nodes
  let intake ← orFail ((list.chunks chunkSize).foldlM takeIn (.new nodes settings 1))
  let relationships ← inContext "building relationships" (orFail intake.close.build)
  orFail (Graph.assemble? nodes [⟨Graph.onlyType, relationships⟩] [])

/-- Bounds for the size of the graph, known before it is loaded: an edge has two endpoints, and is
stored twice unless relationships are directed. -/
def loadDimensions (list : EdgeList) (directed : Bool) : Dimensions :=
  let most := list.size * if directed then 1 else 2
  ⟨most, most⟩

end EdgeList

end PackedGraph
