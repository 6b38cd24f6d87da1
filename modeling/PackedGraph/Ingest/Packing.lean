import PackedGraph.Graph.Relationships
import PackedGraph.Ingest.Intake
import PackedGraph.Workers.Pool

/-!
# From buckets to compressed relationships

Every bucket is packed on its own: its relationships are sorted by source and target, those with equal
source and target are merged by the aggregation in order of arrival, and the targets of each node are
compressed.  Then the pages of all partitions are put behind each other, addresses being moved by the
pages in front.

The order of arrival matters in one way only: sorting is stable, so it is the order in which the
weights of parallel relationships are merged.
-/

namespace PackedGraph

namespace StoredRelationship

/-- The order by source and target. -/
def le (a b : StoredRelationship) : Bool :=
  decide (a.source < b.source) || (a.source == b.source && decide (a.target ≤ b.target))

end StoredRelationship

namespace Aggregation

/-- Take one more relationship of a node, given by target and weight, to those taken before, latest
first.  A parallel one is merged with the latest, or kept, or refused by naming its target. -/
def take (aggregation : Aggregation) (taken : List (Nat × Float)) (next : Nat × Float) :
    Except Nat (List (Nat × Float)) :=
  match taken with
  | [] => .ok [(next.1, aggregation.initial next.2)]
  | (target, weight) :: rest =>
    if target ≠ next.1 then .ok ((next.1, aggregation.initial next.2) :: taken)
    else match aggregation with
      | none => .ok (next :: taken)
      | reject => .error target
      | _ => .ok ((target, aggregation.combine weight next.2) :: rest)

/-- Merge the parallel relationships of a node, which are given in order of their targets. -/
def merge (aggregation : Aggregation) (relationships : List (Nat × Float)) :
    Except Nat (List (Nat × Float)) :=
  (relationships.foldlM aggregation.take []).map List.reverse

end Aggregation

/-- Whether two neighbours in a list are equal. -/
def hasRepeat (targets : List Nat) : Bool :=
  (targets.zip (targets.drop 1)).any fun (a, b) => a == b

/-- What a worker makes of one partition. -/
structure PackedPartition where
  /-- The pages under construction. -/
  compressor : Compressor
  /-- The degrees of the partition's nodes. -/
  degrees : Array Nat
  /-- The addresses of their runs, in the pages of the partition. -/
  addresses : Array Nat
  /-- The weights of all their relationships. -/
  weights : Array Float
  /-- Whether a node has the same target twice. -/
  parallel : Bool
  deriving Inhabited

namespace PackedPartition

/-- No nodes yet. -/
def empty : PackedPartition := ⟨.new bytesPerPage, #[], #[], #[], false⟩

/-- The next node, with its merged relationships. -/
def push (p : PackedPartition) (relationships : List (Nat × Float)) : PackedPartition :=
  let targets := relationships.map Prod.fst
  let (run, compressor) := p.compressor.compress (targets.map UInt64.ofNat)
  { compressor := compressor
    degrees := p.degrees.push run.degree
    addresses := p.addresses.push run.address
    weights := relationships.foldl (fun weights r => weights.push r.2) p.weights
    parallel := p.parallel || hasRepeat targets }

/-- Pack nodes in order, taking the relationships of each from the front of a sorted list. -/
def packNodes (nodes : IdMap) (aggregation : Aggregation) :
    List Nat → List StoredRelationship → PackedPartition → Except Fault PackedPartition
  | [], _, packed => .ok packed
  | node :: later, relationships, packed =>
    let (own, others) := relationships.span (·.source == node)
    match aggregation.merge (own.map fun r => (r.target, r.weight)) with
    | .error target =>
      .error (.duplicateRelationship (nodes.toExternal node) (nodes.toExternal target))
    | .ok merged => packNodes nodes aggregation later others (packed.push merged)

/-- Pack the relationships of a partition. -/
def pack (nodes : IdMap) (aggregation : Aggregation) (partition : Partition)
    (relationships : List StoredRelationship) : Except Fault PackedPartition :=
  packNodes nodes aggregation partition.nodes (relationships.mergeSort StoredRelationship.le) empty

end PackedPartition

/-- The relationships of all nodes, under construction. -/
structure PackedNodes where
  /-- All pages so far. -/
  pages : Array Page
  /-- The degree of every node. -/
  degrees : Array Nat
  /-- The address of every node's run. -/
  addresses : Array Nat
  /-- The weights. -/
  weights : Array Float
  /-- Whether a node has the same target twice. -/
  parallel : Bool
  deriving Inhabited

namespace PackedNodes

/-- No nodes yet. -/
def empty : PackedNodes := ⟨#[], #[], #[], #[], false⟩

/-- Put a partition behind those before it. -/
def append (all : PackedNodes) (next : PackedPartition) : PackedNodes :=
  { pages := all.pages ++ next.compressor.finish
    degrees := all.degrees ++ next.degrees
    addresses := all.addresses ++ next.addresses.map (Address.rebase · all.pages.size)
    weights := all.weights ++ next.weights
    parallel := all.parallel || next.parallel }

/-- The finished relationships of a type. -/
def relationships (all : PackedNodes) (settings : RelationshipSettings) : Relationships :=
  { adjacency := .ofParts all.pages all.degrees all.addresses
    weights :=
      if settings.storesWeights then some (.ofDegrees all.weights all.degrees) else none
    orientation := settings.orientation
    parallel := all.parallel }

end PackedNodes

/-- Pack everything that has been taken in, one worker per partition. -/
def Intake.build (t : Intake) : Except Fault Relationships := do
  checkConcurrency t.settings.concurrency
  let partitions := t.partitions.toArray
  let packed ← Pool.run partitions.size fun worker =>
    match PackedPartition.pack t.nodes t.settings.aggregation (partitions.getD worker ⟨0, 0⟩)
      (t.buckets.getD worker #[]).toList with
    | .ok packed => .value packed
    | .error cause => .fault cause
  return (packed.foldl PackedNodes.append .empty).relationships t.settings

end PackedGraph
