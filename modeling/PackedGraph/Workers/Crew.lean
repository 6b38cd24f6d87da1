import PackedGraph.Workers.Partition
import PackedGraph.Workers.Pool
import PackedGraph.Workers.Progress

/-!
# Handing out nodes

The workers of a crew claim contiguous batches of nodes from a common source and process them node by
node.  `Crew.step` is one step of one worker: to claim a batch, to process a node, or to report a batch
and ask for the next.  A run is a sequence of such steps by workers in any order; `Crew.settle` is the
run in which every worker goes on until it is finished, one after the other.

The trace of a run is `Crew.visits`, which says what node was processed by whom, in order.  An analysis
is a fold over a trace, and `Crew.trace` is the trace of a whole run.
-/

namespace PackedGraph

/-- Where a crew claims its nodes. -/
inductive Source where
  /-- Partitions, each claimed as a whole. -/
  | partitions (rest : List Partition)
  /-- Batches below a node count; the counter in front of them counts modulo `2 ^ 64`. -/
  | counter (next : UInt64) (batch nodeCount : Nat)
  deriving Repr, Inhabited

namespace Source

/-- Claim a batch, given by its first node and the first one behind it. -/
def claim : Source → Option (Nat × Nat) × Source
  | partitions [] => (none, partitions [])
  | partitions (p :: rest) => (some (p.start, p.stop), partitions rest)
  | counter next batch nodeCount =>
    let start := next.toNat
    (if nodeCount ≤ start then none else some (start, min (start + batch) nodeCount),
      counter (next + UInt64.ofNat batch) batch nodeCount)

/-- Steps that are enough for a single worker to use the source up. -/
def budget : Source → Nat
  | partitions rest => rest.foldl (fun total p => total + (p.count + 2)) 1
  | counter _ _ nodeCount => 3 * nodeCount + 2

end Source

/-- What comes of processing one node. -/
inductive TaskResult where
  /-- The node is processed. -/
  | done
  /-- The node is processed, and meanwhile the crew has been asked to stop. -/
  | doneAndStop
  /-- The worker gives up. -/
  | failed (cause : Fault)
  /-- The worker breaks down. -/
  | panicked (payload : Payload)
  deriving Repr, DecidableEq

/-- What is done at a node, given how many nodes the crew has processed before. -/
abbrev Task := Nat → Nat → TaskResult

/-- Where a worker stands. -/
inductive Stage where
  /-- About to claim a batch. -/
  | asking
  /-- In a batch: the next node, the end of the batch and the nodes processed in it. -/
  | working (node stop processed : Nat)
  /-- Back from work. -/
  | finished (outcome : Outcome Unit)
  deriving Repr, DecidableEq, Inhabited

/-- A node processed by a worker. -/
structure Visit where
  /-- The number of the worker. -/
  worker : Nat
  /-- The node. -/
  node : Nat
  deriving Repr, DecidableEq, Inhabited

/-- A crew at work. -/
structure Crew where
  /-- What is left to claim. -/
  source : Source
  /-- Where each worker stands. -/
  stages : Array Stage
  /-- Whether the crew has been asked to stop. -/
  stopped : Bool
  /-- What has been reported. -/
  progress : Progress
  /-- The nodes processed so far, in order. -/
  visits : Array Visit
  deriving Inhabited

namespace Crew

/-- So many workers in front of a source. -/
def new (workers : Nat) (source : Source) (stopped : Bool) (progress : Progress) : Crew :=
  ⟨source, Array.replicate workers .asking, stopped, progress, #[]⟩

/-- A crew for partitions: no more workers than partitions, but at least one. -/
def forPartitions (pool : Pool) (partitions : List Partition) (stopped : Bool) (progress : Progress) :
    Crew :=
  new (max (min pool.concurrency partitions.length) 1) (.partitions partitions) stopped progress

/-- A crew for all nodes below a count, in batches of one size. -/
def forBatches (pool : Pool) (nodeCount batch : Nat) (stopped : Bool) (progress : Progress) : Crew :=
  new pool.concurrency (.counter 0 (max batch 1) nodeCount) stopped progress

/-- Put a worker somewhere else. -/
def move (c : Crew) (worker : Nat) (stage : Stage) : Crew :=
  { c with stages := c.stages.setIfInBounds worker stage }

/-- Tell the progress about processed nodes. -/
def report (c : Crew) (processed : Nat) : Crew :=
  { c with progress := (c.progress.report processed).1 }

/-- One step of one worker. -/
def step (task : Task) (worker : Nat) (c : Crew) : Crew :=
  match c.stages[worker]? with
  | some .asking =>
    match c.source.claim with
    | (some (start, stop), source) => { c with source := source }.move worker (.working start stop 0)
    | (none, source) => { c with source := source }.move worker (.finished (.value ()))
  | some (.working node stop processed) =>
    if stop ≤ node then (c.report processed).move worker .asking
    else if c.stopped then (c.report processed).move worker (.finished (.value ()))
    else
      let visited := { c with visits := c.visits.push ⟨worker, node⟩ }
      match task c.visits.size node with
      | .done => visited.move worker (.working (node + 1) stop (processed + 1))
      | .doneAndStop =>
        { visited with stopped := true }.move worker (.working (node + 1) stop (processed + 1))
      | .failed cause => c.move worker (.finished (.fault cause))
      | .panicked payload => c.move worker (.finished (.panicked payload))
  | some (.finished _) | none => c

/-- Steps of workers in a given order. -/
def run (task : Task) (schedule : List Nat) (c : Crew) : Crew :=
  schedule.foldl (fun c worker => c.step task worker) c

/-- Whether all workers are back. -/
def finished (c : Crew) : Bool :=
  c.stages.all fun stage => match stage with
    | .finished _ => true
    | _ => false

/-- Steps of one worker until it is finished, at most so many. -/
def runWorker (task : Task) (worker : Nat) : Nat → Crew → Crew
  | 0, c => c
  | steps + 1, c =>
    match c.stages[worker]? with
    | some (.finished _) | none => c
    | _ => runWorker task worker steps (c.step task worker)

/-- Every worker goes on until it is finished, one after the other. -/
def settle (task : Task) (c : Crew) : Crew :=
  let steps := c.source.budget
  (List.range c.stages.size).foldl (fun c worker => c.runWorker task worker steps) c

/-- One empty result per worker, or the failure of the lowest-numbered worker that failed. -/
def outcome (c : Crew) : Except Fault (List Unit) :=
  collect (c.stages.toList.zipIdx.map fun (stage, worker) =>
    (worker, match stage with
      | .finished outcome => outcome
      | _ => .value ()))

end Crew

/-- When a run is asked to stop: after so many nodes, or never. -/
abbrev StopAfter := Option Nat

namespace StopAfter

/-- Whether the request has come when so many nodes are processed. -/
def reached (stop : StopAfter) (processed : Nat) : Bool :=
  match stop with
  | some limit => decide (limit ≤ processed)
  | none => false

/-- The same request seen from a later phase, before which so many nodes are processed. -/
def later (stop : StopAfter) (processed : Nat) : StopAfter := stop.map (· - processed)

/-- A task that never fails, interrupted by the request. -/
def task (stop : StopAfter) : Task := fun before _ =>
  if stop = some (before + 1) then .doneAndStop else .done

end StopAfter

/-- A crew that may have been asked to stop before it begins. -/
def Crew.begin (stop : StopAfter) (c : Crew) : Crew := { c with stopped := c.stopped || stop.reached 0 }

/-- A whole run of a crew whose task never fails. -/
def Crew.handOut (stop : StopAfter) (c : Crew) : Crew := (c.begin stop).settle stop.task

/-- The trace of a whole run of a crew whose task never fails. -/
def Crew.trace (stop : StopAfter) (c : Crew) : List Visit := (c.handOut stop).visits.toList

/-- Change the state of one worker together with what all workers share. -/
def onWorker {σ τ : Type} (f : σ → τ → σ × τ) : Nat → List σ → τ → List σ × τ
  | _, [], shared => ([], shared)
  | 0, own :: others, shared =>
    let (own, shared) := f own shared
    (own :: others, shared)
  | worker + 1, own :: others, shared =>
    let (others, shared) := onWorker f worker others shared
    (own :: others, shared)

end PackedGraph
