import PackedGraph.CommandLine.Options
import PackedGraph.EdgeList.Loading
import PackedGraph.Files.Tree
import PackedGraph.Report.Saving

/-!
# A run of the command line

A run reads an edge list, loads its graph, makes the analyses that are asked for and saves documents.
With a memory budget, every step is admitted only if its worst case fits into what the budget leaves
beside the loaded graph.  An analysis that the graph does not support is skipped with a warning; any
other failure ends the run.
-/

namespace PackedGraph

/-- The names of the analyses. -/
def analysisNames : List String := ["wcc", "triangles", "betweenness", "similarity"]

/-- A computation that may warn and may fail. -/
abbrev Running := ExceptT Failure (StateM (List String))

/-- Where the bytes of a run are kept. -/
structure Admission where
  /-- Bytes that no step may exceed in its worst case. -/
  budget : Option Nat
  /-- What is allocated. -/
  account : Account
  deriving Inhabited

/-- Admit a task whose worst case fits into what is left of the budget. -/
def Admission.allow (a : Admission) (task : String) (estimate : MemoryRange) : Except Failure Unit :=
  match a.budget with
  | none => .ok ()
  | some budget => orFail (ensureFits task estimate (budget - a.account.tracked.toNat))

/-- The result of an analysis, or a warning where the graph does not support it. -/
def skipUnsupported {α : Type} (name : String) : Except Fault α → Running (Option α)
  | .ok result => return some result
  | .error (.unsupportedGraph reason) => do
    modify (· ++ ["Skipping " ++ name ++ ": " ++ reason])
    return none
  | .error cause => throw (.within (name ++ " failed") (.fault cause))

/-- What a run has made. -/
structure RunResult where
  /-- The graph. -/
  graph : Graph
  /-- What has been found in it. -/
  findings : Findings
  deriving Inhabited

namespace Options

/-- The number of workers. -/
def workers (o : Options) (processors : Nat) : Nat := if 0 < o.threads then o.threads else processors

/-- The settings of the whole run. -/
def runSettings (o : Options) (workers : Nat) : RunSettings :=
  { concurrency := workers
    minClusterSize := o.minClusterSize
    chunkSize := o.chunkSize
    memoryBudget := o.memoryBudget }

/-- How relationships are taken in. -/
def relationshipSettings (o : Options) (weighted : Bool) (workers : Nat) : RelationshipSettings :=
  { orientation := if o.directed then .natural else .undirected
    aggregation := o.aggregation
    weighted := weighted
    concurrency := workers }

/-- How triangles are counted. -/
def triangleSettings (o : Options) (workers : Nat) : TriangleSettings :=
  { concurrency := workers, maxDegree := o.maxDegree.getD largestWord }

/-- How betweenness is computed. -/
def betweennessSettings (o : Options) (workers : Nat) : BetweennessSettings :=
  { concurrency := workers, weighted := o.weightedBetweenness }

/-- How nodes are compared. -/
def similaritySettings (o : Options) (workers : Nat) : SimilaritySettings :=
  { concurrency := workers
    topK := o.topK
    bottomK := o.bottomK
    topN := o.topN
    cutoff := o.similarityCutoff
    metric := if o.overlap then .overlap else .jaccard }

/-- Whether an analysis is asked for. -/
def wants (o : Options) (name : String) : Bool := o.analyses.contains name

/-- Only analyses with a known name can be made. -/
def checkAnalyses (o : Options) : Except Failure Unit :=
  match o.analyses.find? fun name => !analysisNames.contains name with
  | some name => .error (.remark ("unknown algorithm '" ++ name ++ "'"))
  | none => .ok ()

/-- Count triangles, if asked to. -/
def findTriangles (o : Options) (workers : Nat) (a : Admission) (g : Graph) :
    Running (Option TriangleCounts) := do
  if !o.wants "triangles" then return none
  let settings := o.triangleSettings workers
  a.allow "triangle counting" (TriangleCounts.estimate g.dimensions settings)
  skipUnsupported "triangle counting" (TriangleCounts.compute g settings none)

/-- Compute betweenness, if asked to. -/
def findBetweenness (o : Options) (workers : Nat) (a : Admission) (g : Graph) :
    Running (Option Betweenness) := do
  if !o.wants "betweenness" then return none
  let settings := o.betweennessSettings workers
  a.allow "betweenness" (Betweenness.estimate g.dimensions settings)
  skipUnsupported "betweenness" (Betweenness.compute g settings none)

/-- Compare nodes, if asked to. -/
def findSimilarity (o : Options) (workers : Nat) (a : Admission) (g : Graph) :
    Running (Option Similarity) := do
  if !o.wants "similarity" then return none
  let settings := o.similaritySettings workers
  orFail settings.validate
  a.allow "node similarity" (Similarity.estimate g.dimensions settings)
  skipUnsupported "node similarity" (Similarity.compute g settings none)

/-- Find clusters, if asked to. -/
def findClusters (o : Options) (workers : Nat) (a : Admission) (g : Graph)
    (betweenness : Option Betweenness) : Running (Option (List Cluster)) := do
  if !o.wants "wcc" then return none
  let settings : ComponentSettings := { concurrency := workers, minClusterSize := o.minClusterSize }
  a.allow "connected components" (Components.estimate g.dimensions)
  let components ← orFail (Components.compute g settings none)
  return some ((components.clusters g settings.minClusterSize).map (.describedWith betweenness))

/-- Make the analyses that are asked for on the graph of an input file. -/
def analyze (o : Options) (processors : Nat) (input : InputFile) : Running RunResult := do
  let workers := o.workers processors
  let settings := o.runSettings workers
  orFail settings.validate
  o.checkAnalyses
  let list ← EdgeList.read o.input input 1
  (Admission.mk settings.memoryBudget {}).allow "graph loading"
    (Graph.estimate (list.loadDimensions o.directed) list.weighted)
  let graph ← list.load (o.relationshipSettings list.weighted workers) settings.chunkSize
  let a : Admission := ⟨settings.memoryBudget, (SharedGraph.new graph {}).account⟩
  let triangles ← o.findTriangles workers a graph
  let betweenness ← o.findBetweenness workers a graph
  let similarity ← o.findSimilarity workers a graph
  let clusters ← o.findClusters workers a graph betweenness
  return ⟨graph, { triangles, betweenness, similarity, clusters }⟩

end Options

/-! ## Exit -/

/-- How a run ends. -/
structure Exit where
  /-- The exit code. -/
  code : Nat
  /-- What is said about a failure. -/
  complaint : Option String := none
  /-- What has been skipped. -/
  warnings : List String := []
  deriving Inhabited

namespace Exit

/-- The exit of a run that has failed.  A fatal fault ends a run without a report. -/
def ofFailure (warnings : List String) (failure : Failure) : Exit :=
  if failure.fatal then { code := 101, warnings := warnings }
  else ⟨1, some ("Error: " ++ failure.paragraph), warnings⟩

/-- The exit for arguments that are refused. -/
def refused : Exit := { code := 2 }

end Exit

/-! ## The whole run -/

/-- What reading a file has brought.  A file to which no way leads is missing; a directory is there, but
has no content to be read. -/
def InputFile.ofReading : Except SystemError ByteArray → InputFile
  | .ok bytes => .content bytes
  | .error .missing | .error .notDirectory | .error .nameTooLong => .missing
  | .error error => .unreadable error.message

section

variable {m : Type → Type} [Monad m] [FileSystem m]

/-- Make a run in a file system: how it ends. -/
def Options.run (processors : Nat) (o : Options) : m Exit := do
  let input ← FileSystem.read (Route.ofText o.input)
  match (o.analyze processors (.ofReading input)).run.run [] with
  | (.error failure, warnings) => return .ofFailure warnings failure
  | (.ok result, warnings) =>
    let items := Document.all result.graph result.findings {}
    match ← Item.saveAll (Route.ofText o.outputDirectory) items with
    | .error failure => return .ofFailure warnings failure
    | .ok () => return { code := 0, warnings := warnings }

/-- Run a command in a file system: how it ends. -/
def runCommand (processors : Nat) (arguments : List String) : m Exit :=
  match Invocation.ofArguments arguments with
  | .help => return { code := 0 }
  | .refused => return .refused
  | .run options => options.run processors

end

end PackedGraph
