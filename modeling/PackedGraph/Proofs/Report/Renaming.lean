import PackedGraph.Proofs.Analysis.Nodes
import PackedGraph.Proofs.Analysis.Renaming
import PackedGraph.Proofs.EdgeList.Renaming
import PackedGraph.Report.Saving

/-!
# Only the order of external ids matters

From an edge list to the documents in which the findings are saved: where all external ids are replaced by
others of the same order, everything stays as it is except for the ids themselves.

Main statements: `Document.all_withNodes` and `EdgeList.run_rename`.
-/

namespace PackedGraph

open Json (Value)

variable {f : UInt64 → UInt64} {g : Graph} {nodes : IdMap}

/-! ## New names in a document -/

/-- The entries of a record that name nodes. -/
def nodeEntries : List String := ["node", "node1", "node2", "representative", "central_nodes", "members"]

mutual

/-- A value under new names.  The numbers in an entry that names nodes are external ids, all others stay. -/
@[simp]
def renameValue (f : UInt64 → UInt64) (namesNodes : Bool) : Value → Value
  | .nat number => .nat (if namesNodes then renameWord f number else number)
  | .list items => .list (renameItems f namesNodes items)
  | .record entries => .record (renameEntries f namesNodes entries)
  | .null => .null
  | .bool value => .bool value
  | .float value => .float value
  | .text content => .text content

/-- Each item of a list under new names. -/
@[simp]
def renameItems (f : UInt64 → UInt64) (namesNodes : Bool) : List Value → List Value
  | [] => []
  | item :: rest => renameValue f namesNodes item :: renameItems f namesNodes rest

/-- Each entry of a record under new names. -/
@[simp]
def renameEntries (f : UInt64 → UInt64) (namesNodes : Bool) :
    List (String × Value) → List (String × Value)
  | [] => []
  | (name, value) :: rest =>
    (name, renameValue f (namesNodes || nodeEntries.contains name) value)
      :: renameEntries f namesNodes rest

end

/-- A document under new names. -/
def Document.rename (f : UInt64 → UInt64) (d : Document) : Document :=
  { d with content := renameValue f false d.content }

/-- An item under new names; the name of a directory stays. -/
def Item.rename (f : UInt64 → UInt64) : Item → Item
  | folder path => folder path
  | document d => document (d.rename f)

theorem renameItems_map {α : Type} (namesNodes : Bool) (xs : List α) (describe : α → Value) :
    renameItems f namesNodes (xs.map describe) = xs.map fun x => renameValue f namesNodes (describe x) := by
  induction xs with
  | nil => rfl
  | cons x xs ih => rw [List.map_cons, renameItems, ih, List.map_cons]

theorem renameEntries_append (namesNodes : Bool) (front back : List (String × Value)) :
    renameEntries f namesNodes (front ++ back) =
      renameEntries f namesNodes front ++ renameEntries f namesNodes back := by
  induction front with
  | nil => rfl
  | cons first front ih => rw [List.cons_append, renameEntries, ih, renameEntries, List.cons_append]

namespace Document

/-- A node has its new name. -/
theorem rename_node {dense : Nat} (h : (g.withNodes nodes).external dense = f (g.external dense)) :
    renameValue f true (node g dense) = node (g.withNodes nodes) dense := by
  simp [node, renameValue, h]

theorem rename_nodes {dense : List Nat}
    (h : ∀ n ∈ dense, (g.withNodes nodes).external n = f (g.external n)) :
    renameValue f true (Document.nodes g dense) = Document.nodes (g.withNodes nodes) dense := by
  rw [Document.nodes, renameValue, renameItems_map, Document.nodes]
  exact congrArg Value.list (List.map_congr_left fun n hn => rename_node (h n hn))

/-! ### The summary -/

theorem rename_graphStats (h : g.nodes.Renamed f nodes) :
    renameValue f false (graphStats g) = graphStats (g.withNodes nodes) := by
  have hcount : (g.withNodes nodes).relationshipCount = g.relationshipCount := rfl
  simp [graphStats, number, renameValue, renameEntries, nodeEntries, Graph.nodeCount_withNodes h, hcount,
    Graph.bytes_withNodes h]

/-- An entry that names no node stays. -/
theorem rename_entry {α : Type} {name : String} (hname : nodeEntries.contains name = false)
    (finding : Option α) {describe : α → Value}
    (h : ∀ x, renameValue f false (describe x) = describe x) :
    renameEntries f false (entry name finding describe) = entry name finding describe := by
  cases finding with
  | none => rfl
  | some found =>
    simp only [entry, renameEntries, hname, Bool.or_false, h]

theorem rename_summary (h : g.nodes.Renamed f nodes) (F : Findings) (d : Durations) :
    (summary g F d).rename f = summary (g.withNodes nodes) F d := by
  have htriangles : ∀ t, renameValue f false (triangleStats t d.triangles) = triangleStats t d.triangles :=
    fun t => by simp [triangleStats, number, renameValue, renameEntries, nodeEntries]
  have hbetweenness : ∀ b, renameValue f false (betweennessStats b d.betweenness) =
      betweennessStats b d.betweenness :=
    fun b => by simp [betweennessStats, number, renameValue, renameEntries, nodeEntries]
  have hsimilarity : ∀ s, renameValue f false (similarityStats s d.similarity) =
      similarityStats s d.similarity :=
    fun s => by simp [similarityStats, renameValue, renameEntries, nodeEntries]
  have hclusters : ∀ c, renameValue f false (clusterStats c) = clusterStats c :=
    fun c => by simp [clusterStats, number, renameValue, renameEntries, nodeEntries]
  have hgraph : renameEntries f false [("graph_stats", graphStats g)] =
      [("graph_stats", graphStats (g.withNodes nodes))] := by
    rw [renameEntries, renameEntries, ← rename_graphStats h]
    rfl
  rw [summary, rename, renameValue, renameEntries_append, renameEntries_append, renameEntries_append,
    renameEntries_append, hgraph, rename_entry (by decide) _ htriangles,
    rename_entry (by decide) _ hbetweenness, rename_entry (by decide) _ hsimilarity,
    rename_entry (by decide) _ hclusters, summary]

/-! ### Details -/

theorem rename_graphDetails (h : g.nodes.Renamed f nodes) :
    (graphDetails g).rename f = graphDetails (g.withNodes nodes) := by
  have hdegree : (g.withNodes nodes).degree = g.degree := rfl
  have hcount : (g.withNodes nodes).relationshipCount = g.relationshipCount := rfl
  have htypes : (g.withNodes nodes).types = g.types := rfl
  simp [graphDetails, degreeDistribution, Graph.maxDegree, rename, renameValue, renameEntries, nodeEntries,
    renameItems_map, Graph.nodeCount_withNodes h, Graph.nodeList_withNodes h, hdegree, hcount, htypes]

/-- Every node of the graph has its new name. -/
theorem rename_nodeList (h : g.nodes.Renamed f nodes) :
    ∀ n ∈ g.nodeList, renameValue f true (node g n) = node (g.withNodes nodes) n := fun _ hn =>
  rename_node (Graph.external_withNodes h (List.mem_range.mp hn))

theorem rename_triangles (h : g.nodes.Renamed f nodes) (t : TriangleCounts) :
    (triangles g t).rename f = triangles (g.withNodes nodes) t := by
  simpa [triangles, number, rename, renameValue, renameEntries, nodeEntries, renameItems_map,
    Graph.nodeList_withNodes h] using rename_nodeList h

theorem rename_betweenness (h : g.nodes.Renamed f nodes) (b : Betweenness) :
    (betweenness g b).rename f = betweenness (g.withNodes nodes) b := by
  simpa [betweenness, rename, renameValue, renameEntries, nodeEntries, renameItems_map,
    Graph.nodeList_withNodes h] using rename_nodeList h

theorem rename_similarity {s : Similarity} (h : ∀ pair ∈ s.pairs,
    (g.withNodes nodes).external pair.first = f (g.external pair.first) ∧
      (g.withNodes nodes).external pair.second = f (g.external pair.second)) :
    (similarity g s).rename f = similarity (g.withNodes nodes) s := by
  have hpairs : ∀ pair ∈ s.pairs,
      renameValue f true (node g pair.first) = node (g.withNodes nodes) pair.first ∧
        renameValue f true (node g pair.second) = node (g.withNodes nodes) pair.second := fun pair hpair =>
    ⟨rename_node (h pair hpair).1, rename_node (h pair hpair).2⟩
  simpa [similarity, number, rename, renameValue, renameEntries, nodeEntries, renameItems_map] using hpairs

theorem rename_cluster {c : Cluster}
    (h : c.Among fun n => (g.withNodes nodes).external n = f (g.external n)) :
    (cluster g c).rename f = cluster (g.withNodes nodes) c := by
  cases hcentral : c.centralByBetweenness with
  | none =>
    simp [cluster, hcentral, number, rename, renameValue, renameEntries, nodeEntries,
      rename_node h.representative, rename_nodes h.members, rename_nodes h.centralByDegree]
  | some central =>
    simp [cluster, hcentral, number, rename, renameValue, renameEntries, nodeEntries,
      rename_node h.representative, rename_nodes h.members, rename_nodes h.centralByDegree,
      rename_nodes (h.centralByBetweenness central hcentral)]

theorem rename_clusterOverview (clusters : List Cluster) :
    (clusterOverview clusters).rename f = clusterOverview clusters := by
  simp [clusterOverview, number, rename, renameValue, renameEntries, nodeEntries, renameItems_map]

theorem rename_clusterItems {clusters : List Cluster}
    (h : ∀ c ∈ clusters, c.Among fun n => (g.withNodes nodes).external n = f (g.external n)) :
    (clusterItems g clusters).map (Item.rename f) = clusterItems (g.withNodes nodes) clusters := by
  have hdocuments : (clusters.map fun c => Item.document (cluster g c)).map (Item.rename f) =
      clusters.map fun c => Item.document (cluster (g.withNodes nodes) c) := by
    rw [List.map_map]
    exact List.map_congr_left fun c hc => congrArg Item.document (rename_cluster (h c hc))
  rw [clusterItems, List.map_append, List.map_cons, hdocuments, List.map_singleton, Item.rename, Item.rename,
    rename_clusterOverview, clusterItems]

end Document

/-! ## What has been found -/

/-- Everything that findings name is such a node. -/
structure Findings.Among (P : Nat → Prop) (F : Findings) : Prop where
  /-- Similar pairs are pairs of them. -/
  similarity : ∀ s ∈ F.similarity, ∀ pair ∈ s.pairs, P pair.first ∧ P pair.second
  /-- Clusters name them. -/
  clusters : ∀ clusters ∈ F.clusters, ∀ c ∈ clusters, c.Among P

theorem Findings.Among.mono {P Q : Nat → Prop} {F : Findings} (hF : F.Among P) (h : ∀ n, P n → Q n) :
    F.Among Q where
  similarity s hs pair hpair := (hF.similarity s hs pair hpair).imp (h _) (h _)
  clusters clusters hclusters c hc := (hF.clusters clusters hclusters c hc).mono h

theorem Findings.among_of_forall {P : Nat → Prop} (h : ∀ n, P n) (F : Findings) : F.Among P where
  similarity _ _ _ _ := ⟨h _, h _⟩
  clusters _ _ _ _ := ⟨h _, fun n _ => h n, fun n _ => h n, fun _ _ n _ => h n⟩

/-- Findings that the analyses have made in a graph, with some settings, each perhaps stopped. -/
structure Findings.FoundIn (g : Graph) (F : Findings) : Prop where
  /-- Triangles have been counted. -/
  triangles : ∀ t ∈ F.triangles, ∃ settings stop, TriangleCounts.compute g settings stop = .ok t
  /-- Betweenness has been computed. -/
  betweenness : ∀ b ∈ F.betweenness, ∃ settings stop, Betweenness.compute g settings stop = .ok b
  /-- Nodes have been compared. -/
  similarity : ∀ s ∈ F.similarity, ∃ settings stop, Similarity.compute g settings stop = .ok s
  /-- Components have been found, and made clusters. -/
  clusters : ∀ clusters ∈ F.clusters, ∃ settings stop c minSize,
    Components.compute g settings stop = .ok c ∧
      clusters = (c.clusters g minSize).map (.describedWith F.betweenness)

/-- What has been found names nodes of the graph only. -/
theorem Findings.FoundIn.among {F : Findings} (h : F.FoundIn g) (hg : g.Built) :
    F.Among (· < g.nodeCount) := by
  refine ⟨fun s hs => ?_, fun clusters hclusters c hc => ?_⟩
  · obtain ⟨settings, stop, hcompute⟩ := h.similarity s hs
    exact Similarity.node_lt_of_mem_pairs hg hcompute
  · obtain ⟨settings, stop, components, minSize, hcompute, rfl⟩ := h.clusters clusters hclusters
    obtain ⟨cluster, hcluster, rfl⟩ := List.mem_map.mp hc
    exact (Components.among_clusters hcompute minSize cluster hcluster).describedWith F.betweenness

/-- All items that are saved have new names, and nothing else is different. -/
theorem Document.all_withNodes (h : g.nodes.Renamed f nodes) {F : Findings}
    (hF : F.Among fun n => (g.withNodes nodes).external n = f (g.external n)) (d : Durations) :
    Document.all (g.withNodes nodes) F d = (Document.all g F d).map (Item.rename f) := by
  have htriangles : F.triangles.map (triangles (g.withNodes nodes)) =
      (F.triangles.map (triangles g)).map (rename f) := by
    simp [Function.comp_def, rename_triangles h]
  have hbetweenness : F.betweenness.map (betweenness (g.withNodes nodes)) =
      (F.betweenness.map (betweenness g)).map (rename f) := by
    simp [Function.comp_def, rename_betweenness h]
  have hsimilarity : F.similarity.map (similarity (g.withNodes nodes)) =
      (F.similarity.map (similarity g)).map (rename f) := by
    rw [Option.map_map]
    exact Option.map_congr fun s hs => (rename_similarity (hF.similarity s hs)).symm
  have hclusters : F.clusters.map (clusterItems (g.withNodes nodes)) =
      (F.clusters.map (clusterItems g)).map (List.map (Item.rename f)) := by
    rw [Option.map_map]
    exact Option.map_congr fun clusters hclusters => (rename_clusterItems (hF.clusters clusters hclusters)).symm
  have hdocument : ∀ documents : List Document, (documents.map Item.document).map (Item.rename f) =
      (documents.map (rename f)).map Item.document := fun _ => by simp [Item.rename]
  have htoList : ∀ found : Option Document, found.toList.map (rename f) = (found.map (rename f)).toList := by
    rintro (_ | found) <;> rfl
  rw [all, all, ← rename_summary h, ← rename_graphDetails h, htriangles, hbetweenness, hsimilarity, hclusters]
  simp only [List.map_append, hdocument, htoList, List.map_cons, List.map_nil]
  cases F.clusters <;> rfl

/-! ## A run under new names -/

/-- Whatever is computed in one graph is computed in the other, and fails in the other if it fails in the
one; whatever has been found is saved in the same documents, where each node has its new name. -/
structure Graph.SameUnder (f : UInt64 → UInt64) (g renamed : Graph) : Prop where
  /-- The same triangles are counted. -/
  triangles : ∀ settings stop,
    Alike (Fault.Renames f) Eq (TriangleCounts.compute g settings stop)
      (TriangleCounts.compute renamed settings stop)
  /-- Betweenness is the same. -/
  betweenness : ∀ settings stop,
    Alike (Fault.Renames f) Eq (Betweenness.compute g settings stop)
      (Betweenness.compute renamed settings stop)
  /-- The same pairs are similar. -/
  similarity : ∀ settings stop,
    Alike (Fault.Renames f) Eq (Similarity.compute g settings stop)
      (Similarity.compute renamed settings stop)
  /-- The components are the same. -/
  components : ∀ settings stop,
    Alike (Fault.Renames f) Eq (Components.compute g settings stop)
      (Components.compute renamed settings stop)
  /-- They are described by the same clusters. -/
  clusters : ∀ (c : Components) minSize, c.clusters renamed minSize = c.clusters g minSize
  /-- What has been found in the one is saved as what has been found in the other. -/
  saved : ∀ findings : Findings, findings.FoundIn g → ∀ durations,
    Document.all renamed findings durations = (Document.all g findings durations).map (Item.rename f)

theorem Graph.sameUnder_withNodes (hg : g.Built) (h : g.nodes.Renamed f nodes) :
    g.SameUnder f (g.withNodes nodes) where
  triangles := TriangleCounts.compute_alike hg h
  betweenness := Betweenness.compute_alike h
  similarity := Similarity.compute_alike hg h
  components := Components.compute_alike h
  clusters := Components.clusters_withNodes g nodes
  saved _ hfound :=
    Document.all_withNodes h ((hfound.among hg).mono fun _ hn => Graph.external_withNodes h hn)

/-- Where all names stay, so does everything else. -/
theorem Graph.sameUnder_self (h : ∀ id, f id = id) (g : Graph) : g.SameUnder f g where
  triangles _ _ := .refl (Fault.renames_self h) _
  betweenness _ _ := .refl (Fault.renames_self h) _
  similarity _ _ := .refl (Fault.renames_self h) _
  components _ _ := .refl (Fault.renames_self h) _
  clusters _ _ := rfl
  saved findings _ := by
    have hnodes := Findings.among_of_forall (fun n => (h (g.external n)).symm) findings
    exact Document.all_withNodes (IdMap.renamed_self h g.nodes) hnodes

namespace EdgeList

variable {list : EdgeList} {s : RelationshipSettings} {chunkSize : Nat}

/-- As long as there are words left for the nodes, what has been loaded could be built. -/
theorem built_of_load (hfits : (IdMap.ofIds (endpoints list.edges)).nodeCount ≤ largestWord)
    (h : list.load s chunkSize = .ok g) : g.Built := by
  obtain ⟨r, hbuild, rfl⟩ := exists_build_of_load h
  exact Graph.built_ofBuild ⟨hfits, fun _ _ => IdMap.dense_lt_ofIds⟩ namesBatch_callOf hbuild

/-- **Only the order of external ids matters.**  Whatever the list and the settings: under new names that
have the order of the old ones a graph is loaded in which everything is as before, or none for the same
reason.  As the items that are saved are the same but for the names, so is everything that is written: no
dense id is ever shown as the name of a node. -/
theorem run_rename (h : KeepsOrder f (endpoints list.edges)) (s : RelationshipSettings) (chunkSize : Nat) :
    Alike (Failure.Renames f) (Graph.SameUnder f) (list.load s chunkSize)
      ((list.rename f).load s chunkSize) := by
  refine (load_rename h s chunkSize).strengthen fun g renamed hload hrenamed hsame => ?_
  by_cases hfits : (IdMap.ofIds (endpoints list.edges)).nodeCount ≤ largestWord
  · obtain ⟨nodes, hnodes, rfl⟩ := hsame
    exact Graph.sameUnder_withNodes (built_of_load hfits hload) hnodes
  · -- every word is the name of a node, so none of them can change
    have hself := IdMap.eq_self_of_all_words h (Nat.lt_of_not_le hfits)
    rw [rename_self hself list, hload] at hrenamed
    obtain rfl := Except.ok.inj hrenamed
    exact Graph.sameUnder_self hself g

/-- The names of a path of three nodes are moved up. -/
theorem run_rename_of_path :
    ∃ g renamed, (EdgeList.mk [⟨70, 3, 1⟩, ⟨3, 12, 1⟩] false).load { concurrency := 1 } 1 = .ok g ∧
      ((EdgeList.mk [⟨70, 3, 1⟩, ⟨3, 12, 1⟩] false).rename (· + 1000)).load { concurrency := 1 } 1 =
        .ok renamed ∧ g.SameUnder (· + 1000) renamed := by
  have horder : KeepsOrder (· + 1000) (endpoints [⟨70, 3, 1⟩, ⟨3, 12, 1⟩]) := by decide
  obtain ⟨g, hload⟩ := @exists_load ⟨[⟨70, 3, 1⟩, ⟨3, 12, 1⟩], false⟩ (by decide) { concurrency := 1 }
    (by decide) (by decide) 1
  have hrun := @run_rename _ ⟨[⟨70, 3, 1⟩, ⟨3, 12, 1⟩], false⟩ horder { concurrency := 1 } 1
  rw [hload] at hrun
  obtain ⟨renamed, hrenamed, hsame⟩ := hrun.exists_of_ok
  exact ⟨g, renamed, hload, hrenamed, hsame⟩

end EdgeList

end PackedGraph
