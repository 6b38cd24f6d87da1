import PackedGraph.Analysis.Search
import PackedGraph.Graph.Basic
import PackedGraph.Workers.Crew

/-!
# Betweenness centrality

The betweenness of a node is the sum, over all pairs of other nodes, of the share of shortest paths
between the two that lead through the node.  Every node is a source once; unless weights add up to
infinity, what a search adds to the scores does not depend on the sources before it.  In an undirected
graph every pair is met from both of its ends, so the scores are halved.
-/

namespace PackedGraph

/-- How paths are measured. -/
inductive Measure (κ : Type) where
  /-- By hops, given the targets of every node. -/
  | hops (targets : Nat → List Nat)
  /-- By weight, given the targets of every node with their weights, and how many there are. -/
  | weights (relationships : Nat → List (Nat × κ)) (count : Nat)

/-- Whether paths have costs. -/
def Measure.hasCosts {κ : Type} : Measure κ → Bool
  | hops _ => false
  | weights .. => true

namespace Search

variable {κ ρ : Type} [PathCost κ] [Reckoning ρ]

/-- Search from one source and add the shares of shortest paths to the scores. -/
def visit (measure : Measure κ) (source : Nat) (s : Search κ ρ) (scores : Array ρ) :
    Search κ ρ × Array ρ :=
  let s := match measure with
    | .hops targets => s.breadthFirst targets source
    | .weights relationships count => s.cheapestFirst relationships count source
  s.accumulate source scores

/-- The scores along a trace. -/
def scoresOfTrace (measure : Measure κ) (nodeCount workers : Nat) (trace : List Visit) : Array ρ :=
  let start := (List.replicate workers (Search.new nodeCount measure.hasCosts : Search κ ρ),
    Array.replicate nodeCount (Reckoning.ofCount 0))
  (trace.foldl (fun (own, scores) v => onWorker (visit measure v.node) v.worker own scores) start).2

/-- The final scores: halved where every pair has been met from both ends. -/
def halve (undirected : Bool) (scores : Array ρ) : Array ρ :=
  if undirected then scores.map fun score => Reckoning.div score (Reckoning.ofCount 2) else scores

end Search

/-- The betweenness of every node. -/
structure Betweenness where
  /-- The scores. -/
  scores : Paged Binary64
  /-- Whether the run was asked to stop; the scores then cover the finished sources. -/
  terminated : Bool
  deriving Inhabited

namespace Betweenness

/-- The scores as numbers. -/
def numbers (b : Betweenness) : List Float := b.scores.toList.map Binary64.toFloat

/-- The least score. -/
def least (b : Betweenness) : Float := b.numbers.foldl floatMin (1.0 / 0.0)

/-- The largest score. -/
def largest (b : Betweenness) : Float := b.numbers.foldl floatMax (-1.0 / 0.0)

/-- The mean score. -/
def mean (b : Betweenness) : Float := floatMean b.numbers

/-- A weight by which a path can be measured. -/
def isUsableWeight (weight : Float) : Bool := decide (0 < weight) && weight.isFinite

/-- Measuring by weight needs a usable weight on every relationship.  One node that has another is named: the
first, as by a single worker who takes the nodes in order.  Several workers may name any of them. -/
def checkWeights (g : Graph) : Except Fault Unit :=
  if !g.isWeighted then
    .error (.unsupportedGraph "weighted betweenness requires a relationship weight property")
  else match g.nodeList.find? fun node => !(g.weighted node 1).all fun r => isUsableWeight r.2 with
    | some node =>
      .error (.unsupportedGraph ("weighted betweenness requires positive finite weights, node "
        ++ toString (g.external node).toNat ++ " has another"))
    | none => .ok ()

/-- How paths in a graph are measured. -/
def measureOf (g : Graph) (byWeight : Bool) : Measure Float :=
  if byWeight then .weights (g.weighted · 1) g.relationshipCount else .hops g.targets

/-- The betweenness of every node of a graph. -/
def compute (g : Graph) (settings : BetweennessSettings) (stop : StopAfter) :
    Except Fault Betweenness := do
  settings.validate
  let pool ← Pool.new? settings.concurrency
  if settings.weighted then
    checkWeights g
  let crew := (Crew.forBatches pool g.nodeCount settings.batchSize false
    (.new "Betweenness" g.nodeCount 10)).handOut stop
  let scores : Array Float := Search.scoresOfTrace (measureOf g settings.weighted) g.nodeCount
    pool.concurrency crew.visits.toList
  return {
    scores := .ofArray ((Search.halve g.isUndirected scores).map Binary64.ofFloat)
    terminated := crew.stopped }

/-- The bytes of the scores. -/
def bytes (b : Betweenness) : Nat := Paged.bytes 8 b.scores.size

/-- Bytes that the searches take besides the graph: the scores, and for every worker its buffers, where
the lists of predecessors hold at most one entry per relationship. -/
def estimate (d : Dimensions) (settings : BetweennessSettings) : MemoryRange :=
  let words := Paged.bytes 8 d.nodes
  let buffers := words * 2 + words + d.nodes * 24 + if settings.weighted then words else 0
  .of words + (MemoryRange.mk buffers (buffers + d.relationships * 8 + d.nodes * 16)).times
    settings.concurrency

end Betweenness

end PackedGraph
