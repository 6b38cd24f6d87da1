import PackedGraph.Workers.Pool

/-!
# Tasks in a pool

The tasks of a run are handed to the pool one after the other, which is not waited for: a thread that is free
begins any task that waits, and while some tasks are handed over others may be under way or back already.  A
task comes back with its outcome, which is sent along with the number of its worker.  When every task is back
the outcomes are read.

`Dispatch` is such a run at one moment, and `Dispatch.step?` one move of it.
-/

namespace PackedGraph

/-- A run of a pool at one moment. -/
structure Dispatch (α : Type) where
  /-- The workers whose tasks are not handed over yet. -/
  ahead : List Nat
  /-- The workers whose tasks wait for a thread. -/
  waiting : List Nat := []
  /-- The workers whose tasks are under way. -/
  busy : List Nat := []
  /-- The workers whose tasks have begun, in that order. -/
  begun : List Nat := []
  /-- What has been sent, in that order. -/
  arrived : List (Nat × Outcome α) := []
  deriving Repr, DecidableEq, Inhabited

namespace Dispatch

/-- What can happen next. -/
inductive Move where
  /-- The next task is handed over. -/
  | spawn
  /-- A thread begins the task of a worker. -/
  | begin (worker : Nat)
  /-- The task of a worker comes back. -/
  | finish (worker : Nat)
  deriving Repr, DecidableEq, Inhabited

/-- No task is handed over. -/
def new {α : Type} (workers : Nat) : Dispatch α := { ahead := List.range workers }

variable {α : Type}

/-- One move, if it is possible: there are no more threads than the pool has. -/
def step? (pool : Pool) (task : Nat → Outcome α) (d : Dispatch α) : Move → Option (Dispatch α)
  | .spawn =>
    match d.ahead with
    | [] => none
    | worker :: ahead => some { d with ahead := ahead, waiting := d.waiting ++ [worker] }
  | .begin worker =>
    if worker ∈ d.waiting ∧ d.busy.length < pool.concurrency then
      some { d with
        waiting := d.waiting.erase worker
        busy := worker :: d.busy
        begun := d.begun ++ [worker] }
    else none
  | .finish worker =>
    if worker ∈ d.busy then
      some { d with
        busy := d.busy.erase worker
        arrived := d.arrived ++ [(worker, task worker)] }
    else none

/-- Several moves, one after the other. -/
def run? (pool : Pool) (task : Nat → Outcome α) : Dispatch α → List Move → Option (Dispatch α)
  | d, [] => some d
  | d, move :: moves => (d.step? pool task move).bind fun d => d.run? pool task moves

/-- Whether all tasks are back. -/
def allBack (d : Dispatch α) : Bool := d.ahead.isEmpty && d.waiting.isEmpty && d.busy.isEmpty

/-- What is read when all tasks are back. -/
def result (d : Dispatch α) : Except Fault (List α) := collect d.arrived

end Dispatch

end PackedGraph
