import PackedGraph.Workers.Partition

/-!
# Progress of a task

A task counts the units that it has processed and says so whenever another step of so many percent is
complete.  Nothing waits for progress; it is observed only through its messages.

The numbers of a task are words.  `Progress` keeps them as natural numbers, and `Tracker` as the words that
they are.
-/

namespace PackedGraph

/-- The units processed so far, and the percentage from which the next message is due. -/
structure Progress where
  /-- What the messages call the task. -/
  task : String
  /-- All units of the task. -/
  volume : Nat
  /-- Percents from one message to the next, from 1 to 100. -/
  granularity : Nat
  /-- Units processed so far. -/
  done : Nat
  /-- The percentage from which the next message is due. -/
  next : Nat
  deriving Repr, DecidableEq, Inhabited

namespace Progress

/-- Percents from one message to the next where nothing else is asked for. -/
def usualGranularity : Nat := 10

/-- Nothing is processed yet. -/
def new (task : String) (volume granularity : Nat) : Progress :=
  let granularity := max 1 (min granularity 100)
  ⟨task, volume, granularity, 0, granularity⟩

/-- The message at the start. -/
def beginMessage (p : Progress) : String := p.task ++ " :: Start"

/-- The message at the end. -/
def endMessage (p : Progress) : String := p.task ++ " :: Finished"

/-- The percentage that is complete, never more than 100. -/
def percent (p : Progress) : Nat := min p.done p.volume * 100 / p.volume

/-- More units are processed; at most one message. -/
def report (p : Progress) (units : Nat) : Progress × List String :=
  if units = 0 then (p, [])
  else
    let p := { p with done := p.done + units }
    if p.volume = 0 then (p, [])
    else if p.next ≤ p.percent ∧ p.next ≤ 100 then
      ({ p with next := (p.percent / p.granularity + 1) * p.granularity },
        [p.task ++ " " ++ toString p.percent ++ "%"])
    else (p, [])

/-- Several reports, and all their messages. -/
def reportAll (p : Progress) (reports : List Nat) : Progress × List String :=
  reports.foldl
    (fun (p, messages) units =>
      let (p, more) := p.report units
      (p, messages ++ more))
    (p, [])

end Progress

/-! ## In words

Workers share two of the words: the units processed so far, to which every report adds, and the percentage
from which the next message is due.  A worker reads that percentage and exchanges it for a later one; the
message is its own only if nobody has been faster.  A report breaks down where a sum or a product is no
word. -/

/-- The product of two words, if it is a word. -/
def productOfWords? (a b : UInt64) : Option UInt64 :=
  if a.toNat * b.toNat < UInt64.size then some (a * b) else none

/-- Progress as workers share it. -/
structure Tracker where
  /-- What the messages call the task. -/
  task : String
  /-- All units of the task. -/
  volume : UInt64
  /-- Percents from one message to the next, from 1 to 100. -/
  granularity : UInt64
  /-- Units processed so far. -/
  done : UInt64
  /-- The percentage from which the next message is due. -/
  next : UInt64
  deriving Repr, DecidableEq, Inhabited

namespace Tracker

/-- Nothing is processed yet. -/
def new (task : String) (volume granularity : UInt64) : Tracker :=
  let granularity := max 1 (min granularity 100)
  ⟨task, volume, granularity, 0, granularity⟩

/-- The percentage that is complete, never more than 100. -/
def percent? (t : Tracker) : Option UInt64 :=
  (productOfWords? (min t.done t.volume) 100).map (· / t.volume)

/-- The first step that is not complete at a percentage. -/
def stepBehind? (t : Tracker) (percent : UInt64) : Option UInt64 :=
  (sumOfWords? (percent / t.granularity) 1).bind fun steps => productOfWords? steps t.granularity

/-- As long as a message is due, exchange the percentage of the next one, of which `expected` was read last,
and say the message if that was still there; so many exchanges are tried at most. -/
def announce? (percent : UInt64) :
    (tries : Nat) → (expected : UInt64) → Tracker → Option (Tracker × List String)
  | 0, _, _ => none
  | tries + 1, expected, t =>
    if expected ≤ percent ∧ expected ≤ 100 then
      (t.stepBehind? percent).bind fun moved =>
        if t.next = expected then
          some ({ t with next := moved }, [t.task ++ " " ++ toString percent.toNat ++ "%"])
        else announce? percent tries t.next t
    else some (t, [])

/-- More units are processed; at most one message. -/
def report? (tries : Nat) (t : Tracker) (units : UInt64) : Option (Tracker × List String) :=
  if units = 0 then some (t, [])
  else (sumOfWords? t.done units).bind fun done =>
    let t := { t with done := done }
    if t.volume = 0 then some (t, [])
    else t.percent?.bind fun percent => t.announce? percent tries t.next

/-- Several reports, and all their messages. -/
def reportAll? (tries : Nat) (t : Tracker) : List UInt64 → Option (Tracker × List String)
  | [] => some (t, [])
  | units :: reports =>
    (t.report? tries units).bind fun (t, said) =>
      (t.reportAll? tries reports).map fun (t, later) => (t, said ++ later)

end Tracker

end PackedGraph
