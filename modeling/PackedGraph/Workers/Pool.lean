import PackedGraph.Fault

/-!
# Worker pools

A pool has a fixed number of workers.  Every worker comes back with an outcome; a worker that fails
does not stop the others, and when all are back the failure of the lowest-numbered one decides.

Main definition: `collect` reads the outcomes in worker order, whatever the order of their arrival.
-/

namespace PackedGraph

/-- What a worker leaves behind when it breaks down. -/
inductive Payload where
  | text (message : String)
  | other
  deriving Repr, DecidableEq, Inhabited

/-- The text that reports a breakdown. -/
def Payload.message : Payload → String
  | text message => message
  | other => "worker panicked"

/-- How a worker comes back. -/
inductive Outcome (α : Type) where
  | value (result : α)
  | fault (cause : Fault)
  | panicked (payload : Payload)
  deriving Repr, DecidableEq, Inhabited

/-- A breakdown is a fault of the worker. -/
def Outcome.settle {α : Type} : Outcome α → Except Fault α
  | value result => .ok result
  | fault cause => .error cause
  | panicked payload => .error (.workerFailed payload.message)

/-- The results in worker order, or the failure of the lowest-numbered worker that failed. -/
def collect {α : Type} (arrivals : List (Nat × Outcome α)) : Except Fault (List α) :=
  (arrivals.mergeSort fun a b => decide (a.1 ≤ b.1)).mapM fun arrival => arrival.2.settle

/-- A number of workers. -/
structure Pool where
  /-- How many there are. -/
  concurrency : Nat
  /-- There is at least one. -/
  positive : 0 < concurrency
  deriving Repr

namespace Pool

/-- A pool with so many workers. -/
def new? (concurrency : Nat) : Except Fault Pool :=
  if h : 0 < concurrency then .ok ⟨concurrency, h⟩
  else .error (.configuration "concurrency must be at least 1")

/-- How a pool presents itself. -/
def describe (pool : Pool) : String :=
  "WorkerPool \x7b concurrency: " ++ toString pool.concurrency ++ " \x7d"

/-- Run one task per worker, the workers coming back in a given order. -/
def runInOrder {α : Type} (task : Nat → Outcome α) (order : List Nat) : Except Fault (List α) :=
  collect (order.map fun worker => (worker, task worker))

/-- Run one task per worker. -/
def run {α : Type} (workers : Nat) (task : Nat → Outcome α) : Except Fault (List α) :=
  runInOrder task (List.range workers)

end Pool

end PackedGraph
