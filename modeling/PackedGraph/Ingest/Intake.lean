import PackedGraph.Graph.IdMap
import PackedGraph.Settings.Basic
import PackedGraph.Workers.Partition

/-!
# Taking in relationships

Relationships arrive one by one at an *intake*, directly or through batches.  Each is turned into the
stored relationships that the settings ask for, and every stored relationship goes to the bucket of
the partition that holds its source.

A batch keeps what it is given in one buffer per bucket and hands its buffers over when it is full and
when it is closed, as a list of *deliveries*: one for each buffer that is not empty.  Deliveries of
several batches may arrive in any order that keeps the order of each batch.
-/

namespace PackedGraph

/-- A stored relationship between dense ids. -/
structure StoredRelationship where
  /-- The node in whose run the target is stored. -/
  source : Nat
  /-- The node it leads to. -/
  target : Nat
  /-- Its weight. -/
  weight : Float
  deriving Inhabited

/-- The stored relationships for one that is taken in. -/
def RelationshipSettings.stored (s : RelationshipSettings) (source target : Nat) (weight : Float) :
    List StoredRelationship :=
  if source = target ∧ ¬ s.allowSelfLoops then []
  else (s.orientation.stored source target).map fun (source, target) => ⟨source, target, weight⟩

/-- Stored relationships handed over to one bucket. -/
structure Delivery where
  /-- The number of the bucket. -/
  bucket : Nat
  /-- What is handed over, in order. -/
  relationships : Array StoredRelationship
  deriving Inhabited

/-- A producer's buffers, one per bucket. -/
structure Batch where
  /-- What has not been handed over. -/
  buffers : Array (Array StoredRelationship)
  /-- How many relationships the buffers hold. -/
  buffered : Nat
  deriving Inhabited

namespace Batch

/-- Empty buffers for so many buckets. -/
def new (buckets : Nat) : Batch := ⟨Array.replicate buckets #[], 0⟩

/-- The buffers that are not empty. -/
def deliveries (b : Batch) : List Delivery :=
  if b.buffered = 0 then []
  else (b.buffers.toList.zipIdx.filter fun (buffer, _) => !buffer.isEmpty).map fun (buffer, bucket) =>
    ⟨bucket, buffer⟩

/-- Put stored relationships into their buffers. -/
def push (bucketOf : Nat → Nat) (relationships : List StoredRelationship) (b : Batch) : Batch :=
  relationships.foldl
    (fun b r => ⟨b.buffers.modify (bucketOf r.source) (·.push r), b.buffered + 1⟩) b

end Batch

/-- Where the relationships of one type arrive. -/
structure Intake where
  /-- The nodes. -/
  nodes : IdMap
  /-- What is done with a relationship. -/
  settings : RelationshipSettings
  /-- The nodes of each bucket. -/
  partitions : List Partition
  /-- The stored relationships of each partition, in order of their arrival. -/
  buckets : Array (Array StoredRelationship)
  /-- The batches that are open. -/
  batches : Array Batch
  deriving Inhabited

/-- A relationship offered to an intake. -/
inductive Call where
  /-- Between external ids, directly; without a weight the default one is taken. -/
  | add (source target : UInt64) (weight : Option Float)
  /-- Between external ids, through a batch. -/
  | addTo (batch : Nat) (source target : UInt64) (weight : Option Float)
  /-- Between dense ids, through a batch. -/
  | addDenseTo (batch : Nat) (source target : Nat) (weight : Float)
  /-- Hand over what a batch has buffered. -/
  | flush (batch : Nat)

namespace Intake

/-- An intake with so many open batches. -/
def new (nodes : IdMap) (settings : RelationshipSettings) (batches : Nat) : Intake :=
  let partitions := rangePartition nodes.nodeCount (max settings.concurrency 1)
  { nodes := nodes
    settings := settings
    partitions := partitions
    buckets := Array.replicate partitions.length #[]
    batches := Array.replicate batches (.new partitions.length) }

/-- The bucket for the relationships of a node. -/
def bucketOf (t : Intake) (source : Nat) : Nat := (partitionIndex? t.partitions source).getD 0

/-- Take in a delivery. -/
def deliver (t : Intake) (d : Delivery) : Intake :=
  { t with buckets := t.buckets.modify d.bucket (· ++ d.relationships) }

/-- Take in stored relationships at once. -/
def store (t : Intake) (relationships : List StoredRelationship) : Intake :=
  relationships.foldl (fun t r => t.deliver ⟨t.bucketOf r.source, #[r]⟩) t

/-- Hand over what a batch has buffered. -/
def flush (t : Intake) (batch : Nat) : Intake :=
  match t.batches[batch]? with
  | none => t
  | some b =>
    { b.deliveries.foldl deliver t with
      batches := t.batches.setIfInBounds batch (.new t.partitions.length) }

/-- Whether a batch holds as much as it may. -/
def isFull (t : Intake) (batch : Nat) : Bool :=
  match t.batches[batch]? with
  | none => false
  | some b => decide (max t.settings.batchSize 1 ≤ b.buffered)

/-- Put stored relationships into a batch, which hands over when it is full. -/
def buffer (t : Intake) (batch : Nat) (relationships : List StoredRelationship) : Intake :=
  let bucketOf := fun source => (partitionIndex? t.partitions source).getD 0
  let t := { t with batches := t.batches.modify batch (·.push bucketOf relationships) }
  if t.isFull batch then t.flush batch else t

/-- The dense id of an external id, which has to be one. -/
def resolve (t : Intake) (external : UInt64) : Except Fault Nat :=
  match t.nodes.toDense? external with
  | some dense => .ok dense
  | none => .error (.unknownNode external.toNat)

/-- A number that has to be a dense id. -/
def checkDense (t : Intake) (node : Nat) : Except Fault Unit :=
  if node < t.nodes.nodeCount then .ok () else .error (.unknownNode node)

/-- The stored relationships for one between external ids. -/
def accept (t : Intake) (source target : UInt64) (weight : Option Float) :
    Except Fault (List StoredRelationship) := do
  let source ← t.resolve source
  let target ← t.resolve target
  return t.settings.stored source target (weight.getD t.settings.defaultWeight)

/-- Answer a call.  A call with an unknown node changes nothing. -/
def call (t : Intake) : Call → Except Fault Intake
  | .add source target weight => (t.accept source target weight).map t.store
  | .addTo batch source target weight => (t.accept source target weight).map (t.buffer batch)
  | .addDenseTo batch source target weight => do
    t.checkDense source
    t.checkDense target
    return t.buffer batch (t.settings.stored source target weight)
  | .flush batch => .ok (t.flush batch)

/-- Answer calls in order, up to the first that is refused. -/
def callAll (t : Intake) (calls : List Call) : Except Fault Intake :=
  calls.foldlM call t

/-- Close the batches in order; each hands over what it has buffered. -/
def close (t : Intake) : Intake :=
  { (List.range t.batches.size).foldl flush t with batches := #[] }

end Intake

end PackedGraph
