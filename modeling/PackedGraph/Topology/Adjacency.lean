import PackedGraph.Storage.Budget
import PackedGraph.Storage.Paged
import PackedGraph.Topology.Compressor

/-!
# Compressed adjacency

The ascending targets of every node, as runs in pages of bytes, with the degree and the address of
every node's run beside them.  Targets are read through a cursor (`PackedGraph.Topology.Cursor`).
-/

namespace PackedGraph

/-- The targets of every node. -/
structure Adjacency where
  /-- The pages that hold the runs. -/
  pages : Array Page
  /-- How many targets each node has. -/
  degrees : Paged Nat
  /-- Where each node's run begins. -/
  addresses : Paged Nat
  /-- How many targets there are altogether. -/
  relationshipCount : Nat
  deriving Inhabited

namespace Adjacency

/-- Put pages, degrees and addresses together. -/
def ofParts (pages : Array Page) (degrees addresses : Array Nat) : Adjacency :=
  { pages := pages
    degrees := .ofArray degrees
    addresses := .ofArray addresses
    relationshipCount := degrees.foldl (· + ·) 0 }

/-- Compress the ascending targets of every node. -/
def ofSortedLists (lists : List (List UInt64)) : Adjacency :=
  let (runs, compressor) := (Compressor.new bytesPerPage).compressAll lists
  ofParts compressor.finish (runs.map Run.degree) (runs.map Run.address)

/-- The number of nodes. -/
def nodeCount (a : Adjacency) : Nat := a.degrees.size

/-- Whether an id names a node. -/
def covers (a : Adjacency) (node : Nat) : Bool := a.degrees.covers node

/-- How many targets a node has; none where the id names no node. -/
def degree (a : Adjacency) (node : Nat) : Nat := a.degrees.getD node 0

/-- The page and the offset of a node's run; an empty page where there is nothing to read. -/
def locate (a : Adjacency) (node : Nat) : Page × Nat :=
  if a.degree node = 0 then (#[], 0)
  else
    let address := a.addresses.getD node 0
    (a.pages.getD (Address.page address) #[], Address.offset address)

/-- The bytes of the pages, the degrees and the addresses. -/
def bytes (a : Adjacency) : Nat :=
  a.pages.foldl (fun total page => total + (page.size + Paged.tableEntry)) 0
    + Paged.bytes 4 a.nodeCount + Paged.bytes 8 a.nodeCount

/-- Bounds for the bytes of an adjacency: every target takes at least one byte and at most ten. -/
def estimate (d : Dimensions) : MemoryRange :=
  let tables := Paged.bytes 4 d.nodes + Paged.bytes 8 d.nodes
  let most := d.relationships * Varint.maxEncodedSize
  { min := tables + d.relationships + ceilDiv d.relationships bytesPerPage * Paged.tableEntry
    max := tables + most + ceilDiv most bytesPerPage * Paged.tableEntry }

end Adjacency

end PackedGraph
