import PackedGraph.Analysis.Selection
import PackedGraph.Graph.Basic
import PackedGraph.Workers.Crew

/-!
# Node similarity

Two nodes are compared by the targets that they share.  Only nodes that share one are compared: the
candidates for a node are the sources of its targets, found through an inverse index.  Every node keeps
a bounded selection of its partners, and a bounded selection over all nodes may follow.

Main definitions: `Similarity.compare` is the comparison of one node with its candidates,
`Similarity.ofTrace` the result of comparing the nodes of a trace, and `Similarity.toGraph?` turns the
kept pairs into relationships.
-/

namespace PackedGraph

/-- The sources of every node's incoming relationships. -/
inductive InverseIndex where
  /-- In an undirected graph they are the targets. -/
  | targets (graph : Graph)
  /-- Otherwise they are stored in an adjacency of their own. -/
  | sources (adjacency : Adjacency)
  deriving Inhabited

namespace InverseIndex

/-- The sources of a node, ascending. -/
def sourcesOf (index : InverseIndex) (node : Nat) : List Nat :=
  match index with
  | targets graph => graph.targets node
  | sources adjacency => ((Cursor.unbound [adjacency]).rebind node).toList

/-- How the relationships of a graph are taken in to be read backwards. -/
def settings (concurrency : Nat) : RelationshipSettings :=
  { orientation := .reverse
    aggregation := .single
    concurrency := concurrency }

/-- Take in the relationships of a node through the batch of a worker. -/
def takeIn (g : Graph) (intake : Intake) (v : Visit) : Except Fault Intake :=
  intake.callAll ((g.targets v.node).map fun target => .addDenseTo v.worker v.node target 1)

/-- The index of the nodes of a trace. -/
def ofTrace (g : Graph) (concurrency workers : Nat) (trace : List Visit) : Except Fault InverseIndex := do
  let intake ← trace.foldlM (takeIn g) (.new (.identity g.nodeCount) (settings concurrency) workers)
  let relationships ← intake.close.build
  return .sources relationships.adjacency

/-- The index of a graph, how many nodes have been processed for it, and whether the run has been asked
to stop meanwhile. -/
def build (g : Graph) (pool : Pool) (stop : StopAfter) : Except Fault (InverseIndex × Nat × Bool) := do
  if g.isUndirected then return (.targets g, 0, false)
  let crew := (Crew.forPartitions pool (rangePartition g.nodeCount pool.concurrency) false
    (.new "NodeSimilarity inverse index" g.nodeCount 10)).handOut stop
  let index ← ofTrace g pool.concurrency crew.stages.size crew.visits.toList
  return (index, crew.visits.size, crew.stopped)

end InverseIndex

/-- The partners that a node has kept. -/
structure Partners where
  /-- The node. -/
  node : Nat
  /-- The pairs of the node with its partners. -/
  kept : Selection
  deriving Inhabited

/-- What a worker has found. -/
structure Comparisons where
  /-- The nodes that have partners, latest first. -/
  neighbors : List Partners := []
  /-- How many scores have been computed. -/
  count : Nat := 0
  /-- How many nodes have been compared with others. -/
  nodes : Nat := 0
  deriving Inhabited

/-- The similar pairs of a graph. -/
structure Similarity where
  /-- The nodes that have partners, ascending. -/
  neighbors : List Partners
  /-- The pairs kept over all nodes, where a bound for them is set. -/
  overall : Option Selection
  /-- How many nodes have been compared with others. -/
  nodesCompared : Nat
  /-- How many scores have been computed. -/
  comparisons : Nat
  /-- Whether the run was asked to stop. -/
  terminated : Bool
  deriving Inhabited

namespace Similarity

/-- The nodes that share a target with a node, each once, ascending. -/
def candidates (g : Graph) (index : InverseIndex) (node : Nat) : List Nat :=
  let found := (g.targets node).flatMap fun shared => (index.sourcesOf shared).filter (· != node)
  let sorted := found.mergeSort fun a b => decide (a ≤ b)
  sorted.foldr (fun a rest => if rest.head? = some a then rest else a :: rest) []

/-- The score of a node with one of its candidates. -/
def scoreOf (g : Graph) (metric : SimilarityMetric) (node candidate : Nat) : Float :=
  metric.score (g.degree node) (g.degree candidate) ((g.cursor node).sharedCount (g.cursor candidate))

/-- The candidates of a node that are compared with it. -/
def compared (g : Graph) (settings : SimilaritySettings) (index : InverseIndex) (node : Nat) : List Nat :=
  (candidates g index node).filter fun candidate => decide (settings.degreeCutoff ≤ g.degree candidate)

/-- Compare a node with its candidates. -/
def compare (g : Graph) (settings : SimilaritySettings) (index : InverseIndex) (node : Nat)
    (own : Comparisons) : Comparisons :=
  if g.degree node < settings.degreeCutoff then own
  else
    let scores := (compared g settings index node).map fun candidate =>
      ({ first := node, second := candidate, score := scoreOf g settings.metric node candidate } : ScoredPair)
    let kept := (Selection.new settings.perNode).offerAll
      (scores.filter fun pair => decide (settings.cutoff ≤ pair.score))
    { neighbors := if kept.size = 0 then own.neighbors else ⟨node, kept⟩ :: own.neighbors
      count := own.count + scores.length
      nodes := own.nodes + 1 }

/-- The result of comparing the nodes of a trace. -/
def ofTrace (g : Graph) (settings : SimilaritySettings) (index : InverseIndex) (workers : Nat)
    (trace : List Visit) (terminated : Bool) : Similarity :=
  let own := (trace.foldl (fun own v => own.modify v.worker (compare g settings index v.node))
    (Array.replicate workers ({} : Comparisons))).toList
  let neighbors := (own.flatMap fun c => c.neighbors.reverse).mergeSort fun a b => decide (a.node ≤ b.node)
  { neighbors := neighbors
    overall := settings.overall.map fun bound =>
      neighbors.foldl (fun selection partners => selection.merge partners.kept) (.new bound)
    nodesCompared := own.foldl (fun total c => total + c.nodes) 0
    comparisons := own.foldl (fun total c => total + c.count) 0
    terminated := terminated }

/-- Sets of neighbours are compared, so no neighbour may occur twice. -/
def checkSimple (g : Graph) : Except Fault Unit :=
  if g.parallel then
    .error (.unsupportedGraph ("NodeSimilarity requires a graph without parallel relationships; "
      ++ "use an aggregation other than NONE"))
  else .ok ()

/-- Whether a worker can go on at a node: one that is to be compared needs room for its partners. -/
def checkRoom (g : Graph) (settings : SimilaritySettings) (node : Nat) : Except Fault Unit :=
  if g.degree node < settings.degreeCutoff then .ok ()
  else (Selection.new? settings.perNode).map fun _ => ()

/-- The task of a worker, who breaks down where there is no room for the partners of a node. -/
def task (g : Graph) (settings : SimilaritySettings) (stop : StopAfter) : Task := fun before node =>
  match checkRoom g settings node with
  | .ok () => stop.task before node
  | .error cause => .panicked (.text cause.message)

/-- The similar pairs of a graph without parallel relationships. -/
def compute (g : Graph) (settings : SimilaritySettings) (stop : StopAfter) : Except Fault Similarity := do
  settings.validate
  checkSimple g
  let pool ← Pool.new? settings.concurrency
  let (index, processed, stopped) ← InverseIndex.build g pool stop
  let later := stop.later processed
  let crew := ((Crew.forBatches pool g.nodeCount settings.batchSize stopped
    (.new "NodeSimilarity" g.nodeCount 10)).begin later).settle (task g settings later)
  let _ ← crew.outcome
  let _ ← settings.overall.mapM Selection.new?
  return ofTrace g settings index pool.concurrency crew.visits.toList crew.stopped

/-- The kept pairs: those kept over all nodes where a bound for them is set, else those of each node. -/
def pairs (s : Similarity) : List ScoredPair :=
  match s.overall with
  | some selection => selection.entries
  | none => s.neighbors.flatMap fun partners => partners.kept.entries

/-- The number of kept pairs. -/
def pairCount (s : Similarity) : Nat :=
  match s.overall with
  | some selection => selection.size
  | none => s.neighbors.foldl (fun total partners => total + partners.kept.size) 0

/-- The name of the type of relationships between similar nodes. -/
def typeName : String := "SIMILAR"

/-- The kept pairs as relationships between the nodes of a graph, weighted by their scores. -/
def toGraph? (s : Similarity) (g : Graph) (concurrency : Nat) : Except Fault Graph := do
  let settings : RelationshipSettings :=
    { aggregation := .single, weighted := true, concurrency := concurrency }
  let intake ← (Intake.new g.nodes settings 1).callAll
    (s.pairs.map fun pair => .addDenseTo 0 pair.first pair.second pair.score)
  let relationships ← intake.close.build
  Graph.assemble? g.nodes [⟨typeName, relationships⟩] []

/-! ## Bytes -/

/-- The bytes of a kept pair. -/
def entryBytes : Nat := 24

/-- The bytes for which the selections have room. -/
def bytes (s : Similarity) : Nat :=
  let rooms := s.neighbors.foldl (fun total partners => total + partners.kept.bound.capacity) 0
  (rooms + match s.overall with
    | some selection => selection.bound.capacity
    | none => 0) * entryBytes

/-- Bytes that comparing takes besides the graph: an inverse index if the graph is directed, the
selections, and for every worker its candidates. -/
def estimate (d : Dimensions) (settings : SimilaritySettings) : MemoryRange :=
  let upTo (bytes : Nat) : MemoryRange := ⟨0, bytes⟩
  let overall := match settings.overall with
    | some bound => bound.capacity * entryBytes
    | none => 0
  upTo (Adjacency.estimate d).max + upTo (d.nodes * settings.perNode.capacity * entryBytes)
    + .of overall + (upTo (d.relationships * 8)).times settings.concurrency

end Similarity

end PackedGraph
