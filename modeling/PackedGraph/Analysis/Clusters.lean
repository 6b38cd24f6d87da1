import Std.Data.HashMap
import Std.Data.HashSet
import PackedGraph.Analysis.Betweenness
import PackedGraph.Analysis.Components

/-!
# Clusters

A cluster is a component with enough members, described by its density and its central nodes.

Nodes are grouped chunk by chunk and the groups of all chunks are joined in node order, so the members
of a cluster ascend.  The order in which the groups of a chunk are listed has no influence, because
clusters are put into an order of their own: the larger first, and of equal ones the one with the
smaller representative.
-/

namespace PackedGraph

/-- A set of connected nodes. -/
structure Cluster where
  /-- The place of the cluster in the order of clusters. -/
  id : Nat
  /-- The smallest node of the component. -/
  representative : Nat
  /-- The nodes, ascending. -/
  members : List Nat
  /-- The share of possible relationships between members that exist. -/
  density : Float
  /-- The members with the most relationships inside the cluster. -/
  centralByDegree : List Nat
  /-- The members with the highest betweenness, if that is known. -/
  centralByBetweenness : Option (List Nat)
  deriving Inhabited

/-- The number of members. -/
def Cluster.size (c : Cluster) : Nat := c.members.length

/-! ## Measures of a set of members -/

namespace Graph

/-- The relationships from one of the members to another. -/
def inside (g : Graph) (members : List Nat) : List (Nat × Nat) :=
  let set := Std.HashSet.ofList members
  members.flatMap fun node =>
    ((g.targets node).filter fun target => target != node && set.contains target).map (node, ·)

/-- The relationships between different members as a share of all pairs; one where there is no pair.  Both
numbers are words: the number of pairs of more than `2 ^ 32` members wraps round. -/
def density (g : Graph) (members : List Nat) : Float :=
  let n := members.length
  if n ≤ 1 then 1 else natToFloat (g.inside members).length / natToFloat (n * (n - 1))

/-- Count one more relationship of a node. -/
def countEnd (degrees : Std.HashMap Nat Nat) (node : Nat) : Std.HashMap Nat Nat :=
  degrees.alter node fun degree => some (degree.getD 0 + 1)

/-- For every member how many relationships inside the set begin or end at it. -/
def insideDegrees (g : Graph) (members : List Nat) : Std.HashMap Nat Nat :=
  (g.inside members).foldl (fun degrees (source, target) => countEnd (countEnd degrees target) source)
    (members.foldl (fun degrees node => degrees.insert node 0) ∅)

/-- The members with the highest degree inside the set; of equal ones the smaller node comes first. -/
def centralByDegree (g : Graph) (members : List Nat) (top : Nat) : List Nat :=
  ((g.insideDegrees members).toList.mergeSort fun a b =>
    decide (b.2 < a.2) || (a.2 == b.2 && decide (a.1 ≤ b.1))).take top |>.map Prod.fst

end Graph

/-- The members with the highest scores in the total order of doubles; of equal ones the smaller node
comes first.  Every member has to have a score. -/
def Betweenness.central? (b : Betweenness) (members : List Nat) (top : Nat) : Option (List Nat) :=
  (members.mapM fun node => (b.scores.get? node).map fun score => (node, score.totalOrderKey)).map
    fun scored => (scored.mergeSort fun a b =>
      decide (b.2 < a.2) || (a.2 == b.2 && decide (a.1 ≤ b.1))).take top |>.map Prod.fst

/-! ## Grouping -/

/-- Members by representative. -/
abbrev Groups := Std.HashMap Nat (Array Nat)

/-- A way to list groups. -/
abbrev Listing := Groups → List (Nat × Array Nat)

/-- More members of a group. -/
def Groups.append (groups : Groups) (representative : Nat) (members : Array Nat) : Groups :=
  groups.alter representative fun before => some (before.getD #[] ++ members)

namespace Components

/-- Nodes that are grouped together at first. -/
def chunkSize : Nat := 10000

/-- The nodes of one chunk by their representatives. -/
def groupChunk (c : Components) (chunk : Partition) : Groups :=
  chunk.nodes.foldl (fun groups node => groups.append (c.representatives.getD node node) #[node]) ∅

/-- All nodes by their representatives, the groups of each chunk being listed in some way. -/
def group (listing : Listing) (c : Components) : Groups :=
  (tiles c.representatives.size chunkSize).foldl
    (fun groups chunk => (listing (c.groupChunk chunk)).foldl (fun groups (r, members) =>
      groups.append r members) groups) ∅

/-- How many central nodes of a cluster are named. -/
def centralCount : Nat := 5

/-- The order of clusters. -/
def clusterLe (a b : Cluster) : Bool :=
  decide (b.size < a.size) || (a.size == b.size && decide (a.representative ≤ b.representative))

/-- The clusters with enough members, in order. -/
def clustersListed (listing : Listing) (g : Graph) (c : Components) (minSize : Nat) : List Cluster :=
  let large := (listing (c.group listing)).filter fun (_, members) => decide (minSize ≤ members.size)
  let clusters := large.map fun (representative, members) =>
    ({ id := 0
       representative := representative
       members := members.toList
       density := g.density members.toList
       centralByDegree := g.centralByDegree members.toList centralCount
       centralByBetweenness := none } : Cluster)
  (clusters.mergeSort clusterLe).zipIdx.map fun (cluster, id) => { cluster with id := id }

/-- The clusters with enough members, in order. -/
def clusters (g : Graph) (c : Components) (minSize : Nat) : List Cluster :=
  c.clustersListed Std.HashMap.toList g minSize

end Components

/-- The same cluster with the members that have the highest betweenness. -/
def Cluster.withBetweenness? (c : Cluster) (b : Betweenness) : Option Cluster :=
  (b.central? c.members Components.centralCount).map fun central =>
    { c with centralByBetweenness := some central }

/-- The cluster with those members too where the betweenness of its members is known. -/
def Cluster.describedWith (betweenness : Option Betweenness) (c : Cluster) : Cluster :=
  (betweenness.bind c.withBetweenness?).getD c

/-! ## Summary -/

/-- What there is to say about clusters together. -/
structure ClusterSummary where
  /-- How many there are. -/
  count : Nat := 0
  /-- The size of the largest. -/
  largest : Nat := 0
  /-- The size of the smallest. -/
  smallest : Nat := 0
  /-- The mean size. -/
  meanSize : Float := 0
  /-- The mean density. -/
  meanDensity : Float := 0
  /-- The number of nodes in all of them. -/
  nodes : Nat := 0
  deriving Inhabited

/-- Sum up clusters. -/
def ClusterSummary.of (clusters : List Cluster) : ClusterSummary :=
  match clusters with
  | [] => {}
  | first :: rest =>
    let nodes := clusters.foldl (fun total c => total + c.size) 0
    { count := clusters.length
      largest := rest.foldl (fun largest c => max largest c.size) first.size
      smallest := rest.foldl (fun smallest c => min smallest c.size) first.size
      meanSize := natToFloat nodes / natToFloat clusters.length
      meanDensity := floatMean (clusters.map Cluster.density)
      nodes := nodes }

end PackedGraph
