import Std.Data.HashMap
import Std.Data.HashSet
import PackedGraph.Fault
import PackedGraph.Storage.Paged

/-!
# External ids and dense ids

Users name nodes by arbitrary words, the *external ids*.  Inside a graph nodes are numbered
`0, 1, …` in ascending order of their external ids; these numbers are the *dense ids*.  So the
numbering depends on the set of external ids alone, not on the order in which they were met.
-/

namespace PackedGraph

/-- The numbering of the nodes of a graph. -/
structure IdMap where
  /-- The external id of every dense id. -/
  externals : Paged UInt64
  /-- The dense id of every external id; none where both numberings are the same. -/
  lookup : Option (Std.HashMap UInt64 Nat)
  deriving Inhabited

namespace IdMap

/-- Dense ids that are the external ids `0, 1, …` below a node count. -/
def identity (nodeCount : Nat) : IdMap := ⟨.ofFn nodeCount UInt64.ofNat, none⟩

/-- Keep one of several equal neighbours. -/
def dropRepeats (ids : List UInt64) : List UInt64 :=
  ids.foldr (fun id rest => if rest.head? = some id then rest else id :: rest) []

/-- Number ids that are strictly ascending. -/
def ofAscending (ids : List UInt64) : IdMap :=
  ⟨.ofList ids, some (ids.zipIdx.foldl (fun map (id, dense) => map.insert id dense) ∅)⟩

/-- Number ids in any order, each of which may be repeated. -/
def ofIds (ids : List UInt64) : IdMap :=
  ofAscending (dropRepeats (ids.mergeSort fun a b => decide (a ≤ b)))

/-- The number of nodes. -/
def nodeCount (m : IdMap) : Nat := m.externals.size

/-- The dense id of an external id. -/
def toDense? (m : IdMap) (external : UInt64) : Option Nat :=
  match m.lookup with
  | some map => map[external]?
  | none => if external.toNat < m.nodeCount then some external.toNat else none

/-- The external id of a dense id. -/
def toExternal? (m : IdMap) (dense : Nat) : Option UInt64 := m.externals.get? dense

/-- The external id of a dense id, which has to be one. -/
def toExternal (m : IdMap) (dense : Nat) : UInt64 := m.externals.getD dense 0

/-- Whether an external id names a node. -/
def contains (m : IdMap) (external : UInt64) : Bool := (m.toDense? external).isSome

/-- Whether both numberings are the same. -/
def isIdentity (m : IdMap) : Bool := m.lookup.isNone

/-! ## Bytes -/

/-- The entries for which a hash table that was made for so many has room: `3`, or seven times a power
of two. -/
def usableSlots (entries : Nat) : Nat :=
  if entries = 0 then 0
  else if entries ≤ 3 then 3
  else 7 * (ceilDiv entries 7).nextPowerOfTwo

/-- The bytes of both directions. -/
def bytes (m : IdMap) : Nat :=
  let table := match m.lookup with
    | some _ => usableSlots m.nodeCount * 16
    | none => 0
  Paged.bytes 8 m.nodeCount + table

/-- The bytes that are planned for a node count, seven of eight slots of the table being used. -/
def estimate (nodeCount : Nat) : Nat := Paged.bytes 8 nodeCount + nodeCount * 2 * 8 * 8 / 7

end IdMap

/-- External ids met so far, each once. -/
structure IdCollector where
  /-- The ids. -/
  ids : Std.HashSet UInt64 := ∅
  deriving Inhabited

namespace IdCollector

/-- Another id, perhaps met before. -/
def add (c : IdCollector) (id : UInt64) : IdCollector := ⟨c.ids.insert id⟩

/-- How many ids have been met. -/
def size (c : IdCollector) : Nat := c.ids.size

/-- Whether none has been met. -/
def isEmpty (c : IdCollector) : Bool := c.ids.isEmpty

/-- Number the ids. -/
def build (c : IdCollector) : IdMap :=
  IdMap.ofAscending (c.ids.toList.mergeSort fun a b => decide (a ≤ b))

end IdCollector

end PackedGraph
