import PackedGraph.Fault
import PackedGraph.Ingest.Policy
import PackedGraph.Numeric.Decimal

/-!
# Settings

One record of settings per task, with defaults and a check that names the first setting at fault.
The default number of workers is the number of processors, which the caller supplies.
-/

namespace PackedGraph

/-- Every task needs a worker. -/
def checkConcurrency (concurrency : Nat) : Except Fault Unit :=
  if concurrency = 0 then .error (.configuration "concurrency must be at least 1") else .ok ()

/-- A number that has to be positive. -/
def checkPositive (name : String) (value : Nat) : Except Fault Unit :=
  if value = 0 then .error (.configuration (name ++ " must be positive")) else .ok ()

/-- An optional bound has to be positive if it is set. -/
def checkBound (name : String) : Option Nat → Except Fault Unit
  | none => .ok ()
  | some value => checkPositive name value

/-- Two bounds of which at most one may be set. -/
def checkExclusive (first second : String) : Option Nat → Option Nat → Except Fault Unit
  | some _, some _ => .error (.configuration (first ++ " and " ++ second ++ " are mutually exclusive"))
  | _, _ => .ok ()

/-- Settings for taking in the relationships of one type. -/
structure RelationshipSettings where
  /-- The direction in which relationships are stored. -/
  orientation : Orientation := .natural
  /-- What becomes of parallel relationships. -/
  aggregation : Aggregation := .none
  /-- Whether a relationship of a node with itself is kept. -/
  allowSelfLoops : Bool := true
  /-- Whether a weight is stored beside every relationship. -/
  weighted : Bool := false
  /-- The weight of a relationship that comes without one. -/
  defaultWeight : Float := 1
  /-- How many relationships a batch holds before it hands them over. -/
  batchSize : Nat := 10000
  /-- How many workers compress. -/
  concurrency : Nat
  deriving Inhabited

namespace RelationshipSettings

/-- Whether a build stores weights; counting makes them even where none are asked for. -/
def storesWeights (s : RelationshipSettings) : Bool :=
  s.weighted || s.aggregation == .count

end RelationshipSettings

/-- Settings of a whole run. -/
structure RunSettings where
  /-- Workers for loading and for every analysis. -/
  concurrency : Nat
  /-- Clusters with fewer members are not reported. -/
  minClusterSize : Nat := 3
  /-- Relationships per batch of the loader. -/
  chunkSize : Nat := 100000
  /-- Bytes that no step may exceed in its worst case. -/
  memoryBudget : Option Nat := none
  deriving Inhabited

/-- The first setting at fault. -/
def RunSettings.validate (s : RunSettings) : Except Fault Unit := do
  checkConcurrency s.concurrency
  checkPositive "chunk_size" s.chunkSize

/-- Degrees, batch sizes and the like are unsigned words; this is the largest. -/
def largestWord : Nat := 18446744073709551615

/-- Settings for counting triangles. -/
structure TriangleSettings where
  /-- How many workers count. -/
  concurrency : Nat
  /-- Nodes with a higher degree take part in no triangle. -/
  maxDegree : Nat := largestWord
  deriving Inhabited

/-- The first setting at fault. -/
def TriangleSettings.validate (s : TriangleSettings) : Except Fault Unit :=
  checkConcurrency s.concurrency

/-- Settings for betweenness centrality. -/
structure BetweennessSettings where
  /-- How many workers search. -/
  concurrency : Nat
  /-- Sources that a worker claims at once. -/
  batchSize : Nat := 1
  /-- Whether paths are measured by weight instead of by hops. -/
  weighted : Bool := false
  deriving Inhabited

/-- The first setting at fault. -/
def BetweennessSettings.validate (s : BetweennessSettings) : Except Fault Unit := do
  checkConcurrency s.concurrency
  checkPositive "batch_size" s.batchSize

/-- How alike two sets of neighbours are. -/
inductive SimilarityMetric where
  /-- The size of the intersection by the size of the union. -/
  | jaccard
  /-- The size of the intersection by the size of the smaller set. -/
  | overlap
  deriving Repr, DecidableEq, Inhabited

namespace SimilarityMetric

/-- The word for a metric in configurations. -/
def keyword : SimilarityMetric → String
  | jaccard => "JACCARD"
  | overlap => "OVERLAP"

/-- All metrics. -/
def all : List SimilarityMetric := [jaccard, overlap]

/-- What the size of the intersection is divided by. -/
def denominator (metric : SimilarityMetric) (left right shared : Nat) : Nat :=
  match metric with
  | jaccard => left + right - shared
  | overlap => min left right

/-- The score of two sets with the given sizes and the given size of their intersection; zero where
there is nothing to divide by. -/
def score (metric : SimilarityMetric) (left right shared : Nat) : Float :=
  if metric.denominator left right shared = 0 then 0
  else natToFloat shared / natToFloat (metric.denominator left right shared)

end SimilarityMetric

/-- How many entries a selection keeps, and from which end. -/
structure Bound where
  /-- The number of entries kept. -/
  capacity : Nat
  /-- Whether the largest scores are kept, not the smallest. -/
  largest : Bool
  deriving Repr, DecidableEq, Inhabited

/-- Partners kept per node where no bound is set. -/
def defaultPartners : Nat := 10

/-- Settings for comparing nodes by their neighbours. -/
structure SimilaritySettings where
  /-- How many workers compare. -/
  concurrency : Nat
  /-- Lower scores are dropped. -/
  cutoff : Float := 1e-42
  /-- Nodes with fewer neighbours are not compared. -/
  degreeCutoff : Nat := 1
  /-- Keep this many of the most similar partners of every node. -/
  topK : Option Nat := none
  /-- Keep this many of the least similar partners of every node. -/
  bottomK : Option Nat := none
  /-- Keep this many of the most similar pairs. -/
  topN : Option Nat := none
  /-- Keep this many of the least similar pairs. -/
  bottomN : Option Nat := none
  /-- How similarity is measured. -/
  metric : SimilarityMetric := .jaccard
  /-- Nodes that a worker claims at once. -/
  batchSize : Nat := 64
  deriving Inhabited

/-- Numbers inside a sentence: never an exponent, and no point behind a whole number.  A tie goes away
from zero. -/
def sentenceLayout : NumberLayout :=
  { tie := .up
    lowestPoint := none
    highestPoint := none
    wholeMark := ""
    nanText := "NaN"
    infinityText := "inf" }

namespace SimilaritySettings

/-- The first setting at fault. -/
def validate (s : SimilaritySettings) : Except Fault Unit := do
  checkConcurrency s.concurrency
  checkExclusive "top_k" "bottom_k" s.topK s.bottomK
  checkExclusive "top_n" "bottom_n" s.topN s.bottomN
  checkBound "top_k" s.topK
  checkBound "bottom_k" s.bottomK
  checkBound "top_n" s.topN
  checkBound "bottom_n" s.bottomN
  if s.degreeCutoff = 0 then
    throw (.configuration "degree_cutoff must be at least 1")
  if !(decide (0 ≤ s.cutoff) && decide (s.cutoff ≤ 1)) then
    throw (.configuration ("similarity_cutoff must lie in [0, 1], got "
      ++ sentenceLayout.write (.ofFloat s.cutoff)))
  checkPositive "batch_size" s.batchSize

/-- The selection among the partners of one node. -/
def perNode (s : SimilaritySettings) : Bound :=
  match s.topK, s.bottomK with
  | _, some bottom => ⟨bottom, false⟩
  | some top, none => ⟨top, true⟩
  | none, none => ⟨defaultPartners, true⟩

/-- The selection among all pairs, where one is set. -/
def overall (s : SimilaritySettings) : Option Bound :=
  match s.topN, s.bottomN with
  | some top, _ => some ⟨top, true⟩
  | none, some bottom => some ⟨bottom, false⟩
  | none, none => none

end SimilaritySettings

/-- Settings for connected components. -/
structure ComponentSettings where
  /-- How many workers merge. -/
  concurrency : Nat
  /-- Smaller components are not reported as clusters. -/
  minClusterSize : Nat := 3
  deriving Inhabited

/-- The first setting at fault. -/
def ComponentSettings.validate (s : ComponentSettings) : Except Fault Unit :=
  checkConcurrency s.concurrency

end PackedGraph
