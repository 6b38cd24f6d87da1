import PackedGraph.Analysis.Selection

/-!
# The columns of a selection

A selection is stored in three columns of equal length: the first nodes, the second nodes and the keys.  The
keys ascend, so the worst entry is the last one and the place of a new entry is found by halving.
-/

namespace PackedGraph

/-- A selection, column by column. -/
structure Columns where
  /-- How many entries are kept, and from which end. -/
  bound : Bound
  /-- The first nodes, best first. -/
  firsts : List Nat
  /-- The second nodes, best first. -/
  seconds : List Nat
  /-- The keys, smallest first. -/
  keys : List Float
  deriving Inhabited

namespace Columns

/-- Nothing has been offered. -/
def new (bound : Bound) : Columns := ⟨bound, [], [], []⟩

/-- New columns that have room for as many entries as may be kept. -/
def new? (bound : Bound) : Except Fault Columns := do
  reserve bound.capacity Selection.partBytes
  reserve bound.capacity Selection.partBytes
  reserve bound.capacity Selection.partBytes
  return new bound

/-- The factor between scores and keys. -/
def sign (c : Columns) : Float := if c.bound.largest then -1 else 1

/-- The scores, best first. -/
def scores (c : Columns) : List Float := c.keys.map (· * c.sign)

/-- The entries with their scores, best first. -/
def entries (c : Columns) : List ScoredPair :=
  ((c.firsts.zip c.seconds).zip c.scores).map fun e => ⟨e.1.1, e.1.2, e.2⟩

/-- Where the keys up to some key end, among `size` keys from `base` on: each step halves their number. -/
def searchFrom (keys : List Float) (key : Float) (base size : Nat) : Nat :=
  if size ≤ 1 then if keys.getD base 0 ≤ key then base + 1 else base
  else
    let middle := base + size / 2
    searchFrom keys key (if keys.getD middle 0 ≤ key then middle else base) (size - size / 2)
termination_by size

/-- Where the keys up to some key end: the place of a new key. -/
def position (keys : List Float) (key : Float) : Nat :=
  if keys.isEmpty then 0 else searchFrom keys key 0 keys.length

/-- Put an entry in its place, in every column. -/
def insert (c : Columns) (entry : ScoredPair) (key : Float) : Columns :=
  let place := position c.keys key
  { c with
    firsts := c.firsts.insertIdx place entry.first
    seconds := c.seconds.insertIdx place entry.second
    keys := c.keys.insertIdx place key }

/-- Drop the worst entry, from every column. -/
def dropWorst (c : Columns) : Columns :=
  { c with firsts := c.firsts.dropLast, seconds := c.seconds.dropLast, keys := c.keys.dropLast }

/-- Offer an entry; whether it is kept. -/
def offer (c : Columns) (entry : ScoredPair) : Bool × Columns :=
  if c.bound.capacity = 0 ∨ entry.score.isNaN then (false, c)
  else
    let key := entry.score * c.sign
    if c.keys.length = c.bound.capacity then
      match c.keys.getLast? with
      | some worst => if worst ≤ key then (false, c) else (true, c.dropWorst.insert entry key)
      | none => (true, c.dropWorst.insert entry key)
    else (true, c.insert entry key)

/-- Offer entries in order. -/
def offerAll (c : Columns) (entries : List ScoredPair) : Columns :=
  entries.foldl (fun c entry => (c.offer entry).2) c

/-- Offer all entries of another selection, best first. -/
def merge (c other : Columns) : Columns := c.offerAll other.entries

end Columns

end PackedGraph
