import PackedGraph.Storage.Budget

/-!
# Partitions of the node ids

The ids `0, 1, …` below a node count are cut into contiguous partitions of one length, of which the
last may be shorter.  `rangePartition` makes one partition per worker, and more where that would make
them longer than `maxPartitionSize`; `partitionIndex?` finds the partition of a node by one division.
-/

namespace PackedGraph

/-- No partition is longer. -/
def maxPartitionSize : Nat := 1073741824

/-- A contiguous slice of node ids. -/
structure Partition where
  /-- The first node. -/
  start : Nat
  /-- How many nodes there are. -/
  count : Nat
  deriving Repr, DecidableEq, Inhabited

namespace Partition

/-- The first id behind the partition. -/
def stop (p : Partition) : Nat := p.start + p.count

/-- Whether a node lies in the partition. -/
def contains (p : Partition) (node : Nat) : Bool :=
  decide (p.start ≤ node) && decide (node < p.stop)

/-- The nodes in ascending order. -/
def nodes (p : Partition) : List Nat := (List.range p.count).map (p.start + ·)

end Partition

/-- How many partitions are asked for: one per worker as long as there are nodes for them, and enough
for none to be too long. -/
def partitionCount (nodeCount concurrency : Nat) : Nat :=
  max (min (max concurrency 1) nodeCount) (ceilDiv nodeCount maxPartitionSize)

/-- Cut the ids below a node count into pieces of one length; the last may be shorter. -/
def tiles (nodeCount length : Nat) : List Partition :=
  (List.range (ceilDiv nodeCount length)).map fun i =>
    ⟨i * length, min length (nodeCount - i * length)⟩

/-- Partitions of near-equal length for a number of workers. -/
def rangePartition (nodeCount concurrency : Nat) : List Partition :=
  tiles nodeCount (ceilDiv nodeCount (partitionCount nodeCount concurrency))

/-- The bytes of a partition. -/
def partitionBytes : Nat := 16

/-- Partitions for a number of workers, as long as there is room for so many. -/
def rangePartition? (nodeCount concurrency : Nat) : Except Fault (List Partition) := do
  reserve (partitionCount nodeCount concurrency) partitionBytes
  return rangePartition nodeCount concurrency

/-- The number of the partition that holds a node; nodes behind all partitions count to the last. -/
def partitionIndex? (partitions : List Partition) (node : Nat) : Option Nat :=
  match partitions with
  | [] => none
  | first :: _ => some (min (node / first.count) (partitions.length - 1))

/-! ## Cutting in words

Counts of nodes are words.  A loop cuts off one partition after the other; each of its turns subtracts and
adds words, and breaks down where the result is none. -/

/-- The quotient of two words, rounded up. -/
def ceilDivWords (total step : UInt64) : UInt64 :=
  if total % step = 0 then total / step else total / step + 1

/-- The length of all partitions but the last, in words. -/
def lengthInWords (nodeCount concurrency : UInt64) : UInt64 :=
  ceilDivWords nodeCount
    (max (min (max concurrency 1) nodeCount) (ceilDivWords nodeCount (.ofNat maxPartitionSize)))

/-- The sum of two words, if it is a word. -/
def sumOfWords? (a b : UInt64) : Option UInt64 :=
  if a.toNat + b.toNat < UInt64.size then some (a + b) else none

/-- The difference of two words, if it is a word. -/
def differenceOfWords? (a b : UInt64) : Option UInt64 := if b ≤ a then some (a - b) else none

/-- The partitions that have been cut off, and the first node behind them. -/
structure Cutting where
  /-- The first node that lies in no partition. -/
  start : UInt64 := 0
  /-- The partitions. -/
  pieces : Array Partition := #[]
  deriving Repr, DecidableEq, Inhabited

namespace Cutting

/-- Cut off the next partition. -/
def cut? (nodeCount length : UInt64) (c : Cutting) : Option Cutting :=
  (differenceOfWords? nodeCount c.start).bind fun rest =>
    let count := min length rest
    (sumOfWords? c.start count).map fun next => ⟨next, c.pieces.push ⟨c.start.toNat, count.toNat⟩⟩

/-- Cut while there are nodes behind the partitions, for so many turns at most. -/
def run? (nodeCount length : UInt64) : Nat → Cutting → Option Cutting
  | 0, c => some c
  | turns + 1, c =>
    if c.start < nodeCount then (c.cut? nodeCount length).bind (run? nodeCount length turns) else some c

end Cutting

/-- The partitions that the loop has cut when it ends; nothing if it breaks down, or has not ended after so
many turns. -/
def cutInWords? (nodeCount concurrency : UInt64) (turns : Nat) : Option (List Partition) :=
  if nodeCount = 0 then some []
  else (Cutting.run? nodeCount (lengthInWords nodeCount concurrency) turns {}).bind fun c =>
    if c.start < nodeCount then none else some c.pieces.toList

end PackedGraph
