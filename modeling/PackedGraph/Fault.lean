/-!
# Faults and failures

A `Fault` is the cause for which the engine refuses to go on.  A `Failure` is a fault, or a plain
remark, seen from outside: it carries the contexts in which the cause arose, outermost first.

Main definitions: `Fault.message`, the wording of each cause, and `Failure.chain`, the contexts of a
failure followed by the wording of its cause.
-/

namespace PackedGraph

/-- Why an operation did not deliver. -/
inductive Fault where
  /-- Settings that exclude each other or lie outside their range. -/
  | configuration (reason : String)
  /-- The graph does not have the shape that an analysis needs. -/
  | unsupportedGraph (reason : String)
  /-- Two relationships join the same pair of nodes where only one is allowed. -/
  | duplicateRelationship (source target : UInt64)
  /-- An id that names no node. -/
  | unknownNode (id : Nat)
  /-- The worst case of a task does not fit into the bytes that are left. -/
  | overBudget (task : String) (required available : Nat)
  /-- A worker stopped without an answer. -/
  | workerFailed (reason : String)
  /-- The file system refused. -/
  | io (reason : String)
  /-- A position beyond an array, a byte string or the node range. -/
  | outOfRange
  /-- More room is asked for than any memory has. -/
  | noRoom
  deriving Repr, DecidableEq, Inhabited

namespace Fault

/-- The sentence that a user reads. -/
def message : Fault → String
  | configuration reason => "invalid configuration: " ++ reason
  | unsupportedGraph reason => "unsupported graph: " ++ reason
  | duplicateRelationship source target =>
    "duplicate relationship (" ++ toString source.toNat ++ ")-->(" ++ toString target.toNat
      ++ ") is not allowed by aggregation REJECT"
  | unknownNode id => "unknown node id " ++ toString id
  | overBudget task required available =>
    task ++ " requires up to " ++ toString required ++ " bytes but only " ++ toString available
      ++ " bytes are available"
  | workerFailed reason => "worker failed: " ++ reason
  | io reason => reason
  | outOfRange => "index out of range"
  | noRoom => "capacity overflow"

/-- Whether a fault ends a program on the spot: it is a mistake in what was asked for, about which there
is nothing to report. -/
def fatal : Fault → Bool
  | outOfRange | noRoom => true
  | _ => false

end Fault

/-- A cause together with the contexts that it passed on its way out. -/
inductive Failure where
  /-- The cause is a fault of the engine. -/
  | fault (cause : Fault)
  /-- The cause is a remark that belongs to no kind of fault. -/
  | remark (text : String)
  /-- A failure seen from a wider context. -/
  | within (context : String) (inner : Failure)
  deriving Repr, DecidableEq, Inhabited

namespace Failure

/-- All contexts, outermost first, and then the cause. -/
def chain : Failure → List String
  | fault cause => [cause.message]
  | remark text => [text]
  | within context inner => context :: inner.chain

/-- The fault at the bottom, if the cause is one. -/
def fault? : Failure → Option Fault
  | fault cause => some cause
  | remark _ => none
  | within _ inner => inner.fault?

/-- Whether the cause is a fatal fault. -/
def fatal (f : Failure) : Bool := f.fault?.any Fault.fatal

/-- The whole chain on one line. -/
def line (f : Failure) : String := ": ".intercalate f.chain

/-- The chain as a paragraph: the outermost message, and below it the causes, indented and, when
there are several, numbered from zero. -/
def paragraph (f : Failure) : String :=
  match f.chain with
  | [] => ""
  | [only] => only
  | [outer, cause] => outer ++ "\n\nCaused by:\n    " ++ cause
  | outer :: causes =>
    outer ++ "\n\nCaused by:" ++ String.join
      (causes.zipIdx.map fun (cause, i) => "\n    " ++ toString i ++ ": " ++ cause)

end Failure

/-- Restate a result of the engine where failures are expected. -/
def orFail {α : Type} : Except Fault α → Except Failure α
  | .ok value => .ok value
  | .error cause => .error (.fault cause)

/-- Put the failure of a step into a wider context. -/
def inContext {α : Type} (context : String) : Except Failure α → Except Failure α
  | .ok value => .ok value
  | .error inner => .error (.within context inner)

end PackedGraph
