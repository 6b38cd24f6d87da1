import PackedGraph.Settings.Basic
import PackedGraph.Storage.Budget

/-!
# Keeping the best

A selection keeps the best so many of all entries offered to it, best first: those with the largest or
with the smallest scores.  Of equal scores the one offered first is the better one.  A score that is no
number is never kept.
-/

namespace PackedGraph

/-- A pair of nodes with a score. -/
structure ScoredPair where
  /-- The first node. -/
  first : Nat
  /-- The second node. -/
  second : Nat
  /-- The score. -/
  score : Float
  deriving Inhabited

/-- The best entries offered so far. -/
structure Selection where
  /-- How many entries are kept, and from which end. -/
  bound : Bound
  /-- The entries, best first, with keys instead of scores: smaller keys are better. -/
  keyed : List ScoredPair
  deriving Inhabited

namespace Selection

/-- Nothing has been offered. -/
def new (bound : Bound) : Selection := ⟨bound, []⟩

/-- The bytes of a part of an entry: a node or the score. -/
def partBytes : Nat := 8

/-- A new selection that has room for as many entries as it may keep. -/
def new? (bound : Bound) : Except Fault Selection := do
  reserve bound.capacity partBytes
  return new bound

/-- The factor between scores and keys. -/
def sign (s : Selection) : Float := if s.bound.largest then -1 else 1

/-- The number of entries. -/
def size (s : Selection) : Nat := s.keyed.length

/-- The entries with their scores, best first. -/
def entries (s : Selection) : List ScoredPair :=
  s.keyed.map fun e => { e with score := e.score * s.sign }

/-- Put an entry behind all entries with keys up to its own. -/
def insert (entry : ScoredPair) : List ScoredPair → List ScoredPair
  | [] => [entry]
  | other :: rest =>
    if other.score ≤ entry.score then other :: insert entry rest else entry :: other :: rest

/-- Offer an entry; whether it is kept. -/
def offer (s : Selection) (entry : ScoredPair) : Bool × Selection :=
  if s.bound.capacity = 0 ∨ entry.score.isNaN then (false, s)
  else
    let entry := { entry with score := entry.score * s.sign }
    if s.size = s.bound.capacity then
      match s.keyed.getLast? with
      | some worst =>
        if worst.score ≤ entry.score then (false, s)
        else (true, { s with keyed := insert entry s.keyed.dropLast })
      | none => (true, { s with keyed := insert entry [] })
    else (true, { s with keyed := insert entry s.keyed })

/-- Offer entries in order. -/
def offerAll (s : Selection) (entries : List ScoredPair) : Selection :=
  entries.foldl (fun s entry => (s.offer entry).2) s

/-- Offer all entries of another selection, best first. -/
def merge (s other : Selection) : Selection := s.offerAll other.entries

end Selection

end PackedGraph
