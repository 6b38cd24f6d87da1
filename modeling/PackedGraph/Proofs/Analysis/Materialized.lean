import PackedGraph.Proofs.Analysis.DistinctPairs
import PackedGraph.Proofs.Graph.Traversal
import PackedGraph.Proofs.Workers.AtMostOnce

/-!
# Similar pairs as relationships

The kept pairs come in the order of their scores, best first, and are taken in for a second graph in that order.
The second graph has them in the order of its nodes: every pair becomes a relationship that leads from its first to
its second node and has its score as a weight.  Of parallel relationships only the first would be stored; but no pair
is kept twice, so that none is lost.

Main statements: `Similarity.exists_toGraph`, `Similarity.perm_pairs` and `similarity_materialized`.
-/

namespace PackedGraph

namespace Similarity

variable {r : Similarity} {g similar : Graph} {concurrency : Nat}

/-! ## Taking the pairs in -/

/-- How the pairs are taken in. -/
def takenIn (concurrency : Nat) : RelationshipSettings :=
  { aggregation := .single, weighted := true, concurrency := concurrency }

/-- The calls that take pairs in, through one batch. -/
def calls (pairs : List ScoredPair) : List Call :=
  pairs.map fun pair => .addDenseTo 0 pair.first pair.second pair.score

/-- A pair as a relationship. -/
def relationshipOf (pair : ScoredPair) : StoredRelationship := ⟨pair.first, pair.second, pair.score⟩

theorem mem_map_relationshipOf {pairs : List ScoredPair} {source target : Nat} {score : Float} :
    ⟨source, target, score⟩ ∈ pairs.map relationshipOf ↔ ⟨source, target, score⟩ ∈ pairs := by
  rw [List.mem_map]
  constructor
  · rintro ⟨pair, hpair, heq⟩
    obtain ⟨rfl, rfl, rfl⟩ := StoredRelationship.mk.inj heq
    exact hpair
  · exact fun hpair => ⟨_, hpair, rfl⟩

theorem namesBatch_calls (pairs : List ScoredPair) : ∀ call ∈ calls pairs, call.NamesBatch 1 := by
  intro call hcall batch hbatch
  obtain ⟨pair, -, rfl⟩ := List.mem_map.mp hcall
  obtain rfl := Option.some.inj hbatch
  exact Nat.one_pos

/-- A call offers its pair if it is one of nodes. -/
theorem offer_call {nodes : IdMap} {pair : ScoredPair}
    (hpair : pair.first < nodes.nodeCount ∧ pair.second < nodes.nodeCount) (s : RelationshipSettings) :
    (Call.addDenseTo 0 pair.first pair.second pair.score).offer? nodes s = some (relationshipOf pair) :=
  if_pos hpair

/-- What arrives are the pairs. -/
theorem perm_arrivals_calls {nodes : IdMap} {pairs : List ScoredPair}
    (hpairs : ∀ pair ∈ pairs, pair.first < nodes.nodeCount ∧ pair.second < nodes.nodeCount) (concurrency : Nat) :
    (arrivals nodes (takenIn concurrency) 1 (calls pairs)).Perm (pairs.map relationshipOf) := by
  have hoffers : PackedGraph.offers nodes (takenIn concurrency) (calls pairs) = pairs.map relationshipOf := by
    rw [PackedGraph.offers, calls, List.filterMap_map, ← List.filterMap_eq_map]
    exact List.filterMap_congr fun pair hpair => offer_call (hpairs pair hpair) _
  have hfanOut : (takenIn concurrency).fanOut = fun offer => [offer] := by
    funext offer
    simp [RelationshipSettings.fanOut, RelationshipSettings.stored, takenIn, Orientation.stored]
  have hperm := Ledger.perm_arrivals nodes (takenIn concurrency) (namesBatch_calls pairs)
  rwa [hoffers, hfanOut, List.flatMap_singleton'] at hperm

/-- All calls are answered. -/
theorem callAll_calls {nodes : IdMap} {pairs : List ScoredPair}
    (hpairs : ∀ pair ∈ pairs, pair.first < nodes.nodeCount ∧ pair.second < nodes.nodeCount)
    (s : RelationshipSettings) : (Intake.new nodes s 1).callAll (calls pairs) =
      .ok ((Intake.new nodes s 1).serveAll (calls pairs)) := by
  refine Intake.callAll_new fun call hcall => .inl ?_
  obtain ⟨pair, hpair, rfl⟩ := List.mem_map.mp hcall
  exact ⟨_, offer_call (hpairs pair hpair) s⟩

/-! ## The second graph -/

/-- A graph of the relationships between similar nodes, as its only type. -/
def graphOf (nodes : IdMap) (stored : Relationships) : Graph :=
  ⟨nodes, [⟨typeName, stored⟩], [], Graph.hasParallel nodes.nodeCount [⟨typeName, stored⟩]⟩

/-- Relationships that cover the nodes are a graph. -/
theorem assemble?_graphOf {nodes : IdMap} {stored : Relationships}
    (hcovered : stored.adjacency.nodeCount = nodes.nodeCount) :
    Graph.assemble? nodes [⟨typeName, stored⟩] [] = .ok (graphOf nodes stored) := by
  rw [Graph.assemble?, Graph.checkTypes_eq (by simpa using hcovered) (by simp) (by simp)]
  rfl

/-- What has been built of the calls is the second graph. -/
theorem toGraph?_of_build (hpairs : ∀ pair ∈ r.pairs, pair.first < g.nodeCount ∧ pair.second < g.nodeCount)
    {stored : Relationships} (hcovered : stored.adjacency.nodeCount = g.nodes.nodeCount)
    (hbuild : ((Intake.new g.nodes (takenIn concurrency) 1).serveAll (calls r.pairs)).close.build = .ok stored) :
    r.toGraph? g concurrency = .ok (graphOf g.nodes stored) := by
  rw [toGraph?]
  change ((Intake.new g.nodes (takenIn concurrency) 1).callAll (calls r.pairs)).bind _ = _
  rw [callAll_calls hpairs]
  change (((Intake.new g.nodes (takenIn concurrency) 1).serveAll (calls r.pairs)).close.build).bind _ = _
  rw [hbuild]
  exact assemble?_graphOf hcovered

/-- The pairs that begin with a node, as a row: each second node with the score, by ascending nodes. -/
structure IsRow (r : Similarity) (node : Nat) (row : List (Nat × Float)) : Prop where
  /-- The targets ascend, none is repeated. -/
  ascending : (row.map Prod.fst).Pairwise (· < ·)
  /-- They come from the pairs with their scores, and all of them do. -/
  mem_iff : ∀ target score, (target, score) ∈ row ↔ ⟨node, target, score⟩ ∈ r.pairs

/-- Pairs of nodes, no pair twice, become the relationships of a graph over the same nodes. -/
theorem exists_toGraph (hnodes : g.nodes.Valid)
    (hpairs : ∀ pair ∈ r.pairs, pair.first < g.nodeCount ∧ pair.second < g.nodeCount)
    (hdistinct : (r.pairs.map ScoredPair.ends).Nodup) (hconcurrency : 1 ≤ concurrency) :
    ∃ similar, r.toGraph? g concurrency = .ok similar ∧ similar.Built ∧ similar.nodes = g.nodes ∧
      similar.parallel = false ∧ ∀ node < g.nodeCount, ∀ fallback, r.IsRow node (similar.weighted node fallback) := by
  have hcalls := namesBatch_calls r.pairs
  obtain ⟨stored, hbuild⟩ := @Intake.exists_build_of_calls g.nodes (takenIn concurrency) hnodes hconcurrency
    (by simp [takenIn]) 1 _ hcalls
  obtain ⟨rows, hholds, hlength, -⟩ := Relationships.exists_rows_of_build hnodes hcalls hbuild
  have hcovered : stored.adjacency.nodeCount = g.nodes.nodeCount := hholds.nodeCount_eq.trans hlength
  have hbuilt : stored.Built := ⟨_, _, _, _, hnodes, hcalls, hbuild⟩
  refine ⟨graphOf g.nodes stored, toGraph?_of_build hpairs hcovered hbuild,
    ⟨_, _, [], fun type htype => ?_, assemble?_graphOf hcovered⟩, rfl, ?_, fun node hnode fallback => ?_⟩
  · exact List.mem_singleton.mp htype ▸ hbuilt
  · simp [graphOf, Graph.hasParallel, Relationships.parallel_of_build hnodes hcalls (by simp [takenIn]) hbuild]
  · have hrow := Relationships.makesRow_weighted_of_build hnodes hcalls hbuild rfl hnode fallback
    have harrived := perm_arrivals_calls hpairs concurrency
    simp only [Graph.weighted, graphOf, List.flatMap_singleton]
    refine ⟨hrow.strict (by simp [takenIn]), fun target score => ?_⟩
    -- no pair of nodes arrives twice, so nothing is dropped
    rw [hrow.mem_iff_of_distinct, harrived.mem_iff, mem_map_relationshipOf]
    rw [(harrived.map _).nodup_iff, List.map_map]
    exact hdistinct

/-- A graph of the kept pairs: every pair is a relationship, and nothing else is. -/
structure Materializes (r : Similarity) (g similar : Graph) : Prop where
  /-- The nodes are the same. -/
  nodes_eq : similar.nodes = g.nodes
  /-- A traversal with weights shows the pairs that begin with a node, by ascending targets. -/
  visitWeighted : ∀ node < g.nodeCount, ∀ fallback, ∃ row, r.IsRow node row ∧
    similar.visitWeighted node fallback (Visitor.noting fun _ => true) [] =
      row.map fun entry => (node, entry.1, entry.2)
  /-- There are as many relationships as pairs. -/
  relationshipCount_eq : similar.relationshipCount = r.pairCount
  /-- None leads from a node to itself. -/
  not_mem_targets : ∀ node, node ∉ similar.targets node
  /-- No two are parallel. -/
  parallel_eq : similar.parallel = false

/-- The relationships of all nodes are the pairs. -/
theorem perm_pairs (hpairs : ∀ pair ∈ r.pairs, pair.first < similar.nodeCount ∧ pair.second < similar.nodeCount)
    (hdistinct : (r.pairs.map ScoredPair.ends).Nodup) (fallback : Float)
    (hrows : ∀ node < similar.nodeCount, r.IsRow node (similar.weighted node fallback)) :
    (similar.nodeList.flatMap fun node => (similar.weighted node fallback).map fun entry =>
      (⟨node, entry.1, entry.2⟩ : ScoredPair)).Perm r.pairs := by
  refine (List.perm_ext_iff_of_nodup (List.nodup_flatMap.mpr ⟨fun node hnode => ?_, ?_⟩)
    (List.Nodup.of_map _ hdistinct)).mpr fun pair => ?_
  · have hnodup := List.Nodup.of_map Prod.fst ((hrows node (List.mem_range.mp hnode)).ascending.imp Nat.ne_of_lt)
    refine List.Nodup.map (fun a b heq => ?_) hnodup
    obtain ⟨-, htarget, hscore⟩ := ScoredPair.mk.inj heq
    exact Prod.ext htarget hscore
  · -- the relationships of different nodes begin differently
    refine List.nodup_range.imp fun {a b} hne pair ha hb => hne ?_
    obtain ⟨entry, -, rfl⟩ := List.mem_map.mp ha
    obtain ⟨other, -, heq⟩ := List.mem_map.mp hb
    exact (ScoredPair.mk.inj heq).1.symm
  · simp only [List.mem_flatMap, List.mem_map, Graph.nodeList, List.mem_range]
    constructor
    · rintro ⟨node, hnode, entry, hentry, rfl⟩
      exact ((hrows node hnode).mem_iff _ _).mp hentry
    · intro hpair
      have hfirst := (hpairs pair hpair).1
      exact ⟨pair.first, hfirst, (pair.second, pair.score), ((hrows _ hfirst).mem_iff _ _).mpr hpair, rfl⟩

/-- Pairs of different nodes, no pair twice, can be materialized. -/
theorem exists_materializes (hnodes : g.nodes.Valid)
    (hpairs : ∀ pair ∈ r.pairs, pair.first < g.nodeCount ∧ pair.second < g.nodeCount)
    (hdistinct : (r.pairs.map ScoredPair.ends).Nodup) (hdifferent : ∀ pair ∈ r.pairs, pair.second ≠ pair.first)
    (hconcurrency : 1 ≤ concurrency) :
    ∃ similar, r.toGraph? g concurrency = .ok similar ∧ r.Materializes g similar := by
  obtain ⟨similar, hgraph, hbuilt, hsame, hparallel, hrows⟩ :=
    exists_toGraph hnodes hpairs hdistinct hconcurrency
  have hcount : similar.nodeCount = g.nodeCount := congrArg IdMap.nodeCount hsame
  refine ⟨similar, hgraph, hsame, fun node hnode fallback => ?_, ?_, fun node hself => ?_, hparallel⟩
  · refine ⟨similar.weighted node fallback, hrows node hnode fallback, ?_⟩
    have hsees := (Visitor.noting fun _ => true).sees_showAll (similar.weightedOf node fallback) []
    rw [hbuilt.visitWeighted_eq, hsees.whole fun place => (Visitor.goesOn_noting _ _ place).mpr fun _ => rfl,
      Visitor.after_noting, List.nil_append]
    rfl
  · calc similar.relationshipCount
      _ = (similar.nodeList.map fun node => (similar.targets node).length).sum := hbuilt.relationshipCount_eq
      _ = (similar.nodeList.flatMap fun node => (similar.weighted node 0).map fun entry =>
            (⟨node, entry.1, entry.2⟩ : ScoredPair)).length := by
        simp only [List.length_flatMap, List.length_map, ← (hbuilt.perm_weighted _ 0).length_eq]
      _ = r.pairs.length :=
        (perm_pairs (by rwa [hcount]) hdistinct 0 fun node hnode => hrows node (hcount ▸ hnode) 0).length_eq
      _ = r.pairCount := length_pairs r
  · have hnode : node < g.nodeCount := hcount ▸ hbuilt.source_lt hself
    obtain ⟨⟨target, score⟩, hentry, rfl⟩ := List.mem_map.mp ((hbuilt.perm_weighted node 0).mem_iff.mpr hself)
    exact hdifferent _ (((hrows _ hnode 0).mem_iff _ _).mp hentry) rfl

/-! ## Results -/

/-- What is found along distinct nodes can be materialized. -/
theorem exists_materializes_ofTrace (hg : g.Built) (hnodes : g.nodes.Valid) (s : SimilaritySettings)
    {index : InverseIndex} (hindex : index.Sound g) {workers : Nat} {trace : List Visit}
    (hworkers : ∀ v ∈ trace, v.worker < workers) (hdistinct : (trace.map Visit.node).Nodup) (terminated : Bool)
    (hconcurrency : 1 ≤ concurrency) :
    ∃ similar, (ofTrace g s index workers trace terminated).toGraph? g concurrency = .ok similar ∧
      (ofTrace g s index workers trace terminated).Materializes g similar := by
  obtain ⟨hends, hdifferent⟩ := @nodup_ends_pairs g s index workers trace hworkers hdistinct terminated
  exact exists_materializes hnodes (lt_of_mem_pairs_ofTrace hg hindex workers trace terminated) hends hdifferent
    hconcurrency

/-- What a run returns has been found along distinct nodes, with a sound index. -/
theorem exists_trace_of_compute (hg : g.Built) {s : SimilaritySettings} {stop : StopAfter}
    (h : compute g s stop = .ok r) (hlimit : g.nodeCount + (s.concurrency + 1) * max s.batchSize 1 ≤ counterLimit) :
    ∃ index trace terminated, index.Sound g ∧ (∀ v ∈ trace, v.worker < s.concurrency) ∧
      (trace.map Visit.node).Nodup ∧ r = ofTrace g s index s.concurrency trace terminated := by
  obtain ⟨⟨⟩, -, h⟩ := ok_of_bind h
  obtain ⟨⟨⟩, -, h⟩ := ok_of_bind h
  obtain ⟨pool, hpool, h⟩ := ok_of_bind h
  obtain ⟨found, hfound, h⟩ := ok_of_bind h
  obtain ⟨index, processed, stopped, hbuild, hindex⟩ := InverseIndex.exists_build_sound hg pool stop
  obtain rfl := Except.ok.inj (hbuild.symm.trans hfound)
  obtain ⟨_, -, h⟩ := ok_of_bind h
  obtain ⟨_, -, h⟩ := ok_of_bind h
  obtain rfl := Except.ok.inj h
  rw [← Pool.concurrency_of_new hpool] at hlimit ⊢
  refine ⟨index, _, _, hindex, ?_, Crew.nodup_visits_batches pool g.nodeCount s.batchSize stopped _ _ _ ?_, rfl⟩
  · intro v hv
    have hworker := Crew.worker_lt_of_settle rfl v hv
    rw [Crew.size_stages_settle] at hworker
    exact hworker.trans_eq (Crew.size_stages_new ..)
  · rw [Nat.add_one_mul] at hlimit
    omega

end Similarity

/-- Three nodes that share targets keep a pair each. -/
theorem pairCount_sharedWays {g : Graph} (hg : g.Built) (hcount : g.nodeCount = 5)
    (htargets : ∀ u < 5, g.targets u = sharedTargets u) {r : Similarity}
    (hexact : Similarity.Exact g sharedSettings r) : r.pairCount = 3 := by
  have hone : ∀ partners ∈ r.neighbors, partners.kept.entries.length = 1 := by
    intro partners hpartners
    obtain ⟨v, hsimilar⟩ := (hexact.mem_iff partners.node).mp (List.mem_map_of_mem hpartners)
    obtain ⟨-, ranked, -, hmem, hentries⟩ := hexact.isBest partners hpartners
    have hranked := List.length_pos_of_mem ((hmem _).mpr ⟨v, hsimilar, rfl⟩)
    rw [hentries, List.length_take]
    exact Nat.min_eq_left hranked
  have hnodes := congrArg List.length (nodes_sharedWays hg hcount htargets hexact)
  rw [List.length_map] at hnodes
  rw [← Similarity.length_pairs, Similarity.pairs, hexact.overall_eq]
  dsimp only
  rw [List.length_flatMap, List.map_congr_left hone, List.map_const', List.sum_replicate, hnodes]
  rfl

end PackedGraph
