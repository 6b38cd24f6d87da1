import PackedGraph.Analysis.Clusters
import PackedGraph.Analysis.Similarity
import PackedGraph.Analysis.Triangles
import PackedGraph.Json.Value

/-!
# Documents

What a run has found, as JSON documents.  Dense ids stay inside: every node is written by its external
id.
-/

namespace PackedGraph

open Json (Value)

/-- What a run has found; nothing for an analysis that was not asked for or not possible. -/
structure Findings where
  /-- The triangles. -/
  triangles : Option TriangleCounts := none
  /-- The betweenness of every node. -/
  betweenness : Option Betweenness := none
  /-- The similar pairs. -/
  similarity : Option Similarity := none
  /-- The clusters. -/
  clusters : Option (List Cluster) := none
  deriving Inhabited

/-- How many milliseconds the analyses took, as far as anyone has measured them. -/
structure Durations where
  /-- Counting triangles. -/
  triangles : Nat := 0
  /-- Computing betweenness. -/
  betweenness : Nat := 0
  /-- Comparing nodes. -/
  similarity : Nat := 0
  deriving Inhabited

/-- A document and the path of its file, seen from the output directory. -/
structure Document where
  /-- The directories and the name. -/
  path : List String
  /-- What it says. -/
  content : Value
  deriving Inhabited

/-- Something in the output directory. -/
inductive Item where
  /-- A directory, by its path from there. -/
  | folder (path : List String)
  /-- A document. -/
  | document (document : Document)
  deriving Inhabited

namespace Document

/-- A number. -/
def number (x : Float) : Value := .float (.ofFloat x)

/-- A node by its external id. -/
def node (g : Graph) (dense : Nat) : Value := .nat (g.external dense).toNat

/-- Nodes by their external ids. -/
def nodes (g : Graph) (dense : List Nat) : Value := .list (dense.map (node g))

/-! ## The summary -/

/-- What the graph is like. -/
def graphStats (g : Graph) : Value :=
  let meanDegree : Float :=
    if g.nodeCount = 0 then 0 else natToFloat g.relationshipCount / natToFloat g.nodeCount
  .record [("node_count", .nat g.nodeCount),
    ("relationship_count", .nat g.relationshipCount),
    ("undirected", .bool g.isUndirected),
    ("multi_graph", .bool g.parallel),
    ("avg_degree", number meanDegree),
    ("size_in_bytes", .nat g.bytes)]

/-- What there is to say about triangles. -/
def triangleStats (t : TriangleCounts) (millis : Nat) : Value :=
  .record [("global_triangles", .nat t.total),
    ("average_clustering", number t.meanClustering),
    ("terminated", .bool t.terminated),
    ("compute_millis", .nat millis)]

/-- What there is to say about betweenness. -/
def betweennessStats (b : Betweenness) (millis : Nat) : Value :=
  .record [("min", number b.least),
    ("max", number b.largest),
    ("mean", number b.mean),
    ("terminated", .bool b.terminated),
    ("compute_millis", .nat millis)]

/-- What there is to say about similar nodes. -/
def similarityStats (s : Similarity) (millis : Nat) : Value :=
  .record [("nodes_compared", .nat s.nodesCompared),
    ("comparisons", .nat s.comparisons),
    ("pairs", .nat s.pairs.length),
    ("terminated", .bool s.terminated),
    ("compute_millis", .nat millis)]

/-- What there is to say about clusters. -/
def clusterStats (clusters : List Cluster) : Value :=
  let s := ClusterSummary.of clusters
  .record [("cluster_count", .nat s.count),
    ("largest", .nat s.largest),
    ("smallest", .nat s.smallest),
    ("mean_size", number s.meanSize),
    ("mean_density", number s.meanDensity),
    ("clustered_nodes", .nat s.nodes)]

/-- An entry of the summary for an analysis that has been made. -/
def entry {α : Type} (name : String) (finding : Option α) (describe : α → Value) :
    List (String × Value) :=
  match finding with
  | some finding => [(name, describe finding)]
  | none => []

/-- The summary of a run. -/
def summary (g : Graph) (f : Findings) (d : Durations) : Document :=
  ⟨["summary.json"], .record ([("graph_stats", graphStats g)]
    ++ entry "triangles" f.triangles (triangleStats · d.triangles)
    ++ entry "betweenness" f.betweenness (betweennessStats · d.betweenness)
    ++ entry "similarity" f.similarity (similarityStats · d.similarity)
    ++ entry "cluster_stats" f.clusters clusterStats)⟩

/-! ## Details -/

/-- Degrees from this one on are counted together. -/
def degreeCap : Nat := 100

/-- How many nodes have each degree. -/
def degreeDistribution (g : Graph) : List Nat :=
  (g.nodeList.foldl (fun counts node => counts.modify (min (g.degree node) degreeCap) (· + 1))
    (Array.replicate (degreeCap + 1) 0)).toList

/-- Details on the graph. -/
def graphDetails (g : Graph) : Document :=
  ⟨["graph_stats.json"], .record [("node_count", .nat g.nodeCount),
    ("relationship_count", .nat g.relationshipCount),
    ("max_degree", .nat g.maxDegree),
    ("relationship_types", .list (g.types.map fun type => .text type.name)),
    ("degree_distribution", .list ((degreeDistribution g).map .nat))]⟩

/-- The triangles of every node. -/
def triangles (g : Graph) (t : TriangleCounts) : Document :=
  ⟨["triangles.json"], .record [("global_triangles", .nat t.total),
    ("average_clustering", number t.meanClustering),
    ("terminated", .bool t.terminated),
    ("nodes", .list (g.nodeList.map fun n => .record [("node", node g n),
      ("triangles", .nat (t.perNode.getD n 0)),
      ("clustering", number (t.clustering.getD n 0))]))]⟩

/-- The betweenness of every node. -/
def betweenness (g : Graph) (b : Betweenness) : Document :=
  ⟨["betweenness.json"], .record [("terminated", .bool b.terminated),
    ("nodes", .list (g.nodeList.map fun n =>
      .record [("node", node g n), ("score", .float (b.scores.getD n .zero))]))]⟩

/-- The similar pairs. -/
def similarity (g : Graph) (s : Similarity) : Document :=
  ⟨["similarity.json"], .record [("terminated", .bool s.terminated),
    ("pairs", .list (s.pairs.map fun pair => .record [("node1", node g pair.first),
      ("node2", node g pair.second),
      ("similarity", number pair.score)]))]⟩

/-- The directory of the clusters. -/
def clusterFolder : String := "clusters"

/-- One cluster. -/
def cluster (g : Graph) (c : Cluster) : Document :=
  let byBetweenness := match c.centralByBetweenness with
    | some central => nodes g central
    | none => .null
  ⟨[clusterFolder, "cluster_" ++ toString c.id ++ ".json"], .record [("id", .nat c.id),
    ("representative", node g c.representative),
    ("size", .nat c.size),
    ("density", number c.density),
    ("central_nodes", .record [("degree", nodes g c.centralByDegree), ("betweenness", byBetweenness)]),
    ("members", nodes g c.members)]⟩

/-- An overview of all clusters. -/
def clusterOverview (clusters : List Cluster) : Document :=
  ⟨["all_clusters.json"], .record [("clusters", .list (clusters.map fun c =>
    .record [("id", .nat c.id),
      ("size", .nat c.size),
      ("density", number c.density),
      ("central_nodes_count", .nat c.centralByDegree.length)]))]⟩

/-- The items of the clusters: their directory, a document for each, and an overview. -/
def clusterItems (g : Graph) (clusters : List Cluster) : List Item :=
  .folder [clusterFolder]
    :: (clusters.map fun c => Item.document (cluster g c)) ++ [.document (clusterOverview clusters)]

/-- All items of a run, in the order in which they are saved. -/
def all (g : Graph) (f : Findings) (d : Durations) : List Item :=
  ([summary g f d, graphDetails g]
    ++ (f.triangles.map (triangles g)).toList
    ++ (f.betweenness.map (betweenness g)).toList
    ++ (f.similarity.map (similarity g)).toList).map .document
    ++ (f.clusters.map (clusterItems g)).getD []

end Document

end PackedGraph
