import PackedGraph.Proofs.EdgeList.Loading
import PackedGraph.Proofs.Graph.Renaming
import PackedGraph.Proofs.Ingest.Rejection

/-!
# An edge list under other names

The endpoints of an edge list are turned into dense ids before anything else is done with them.  So where
new names keep the order of the old ones, the same relationships arrive in the same order, and the same is
built of them, or the same pair is refused.

Main statement: `EdgeList.load_rename`.
-/

namespace PackedGraph

variable {f : UInt64 → UInt64}

/-- The edge between the new names of its ends. -/
def Edge.rename (f : UInt64 → UInt64) (e : Edge) : Edge := ⟨f e.source, f e.target, e.weight⟩

/-- The edges between new names. -/
def EdgeList.rename (f : UInt64 → UInt64) (list : EdgeList) : EdgeList :=
  ⟨list.edges.map (Edge.rename f), list.weighted⟩

/-- Where all names stay, so does the list. -/
theorem EdgeList.rename_self (h : ∀ id, f id = id) (list : EdgeList) : list.rename f = list := by
  have hedges : list.edges.map (Edge.rename f) = list.edges :=
    List.map_id'' (fun e => by rw [Edge.rename, h, h]) list.edges
  rw [rename, hedges]

theorem endpoints_rename (edges : List Edge) :
    endpoints (edges.map (Edge.rename f)) = (endpoints edges).map f := by
  rw [endpoints, endpoints, List.flatMap_map, List.map_flatMap]
  rfl

/-! ## What is offered -/

/-- Under their new names the edges offer the same relationships. -/
theorem offers_rename {edges : List Edge} (h : KeepsOrder f (endpoints edges)) (s : RelationshipSettings) :
    offers (IdMap.ofIds (endpoints (edges.map (Edge.rename f)))) s
        ((edges.map (Edge.rename f)).map EdgeList.callOf) =
      offers (IdMap.ofIds (endpoints edges)) s (edges.map EdgeList.callOf) := by
  simp only [offers, List.filterMap_map, endpoints_rename]
  refine List.filterMap_congr fun e he => ?_
  have hmem : ∀ id ∈ [e.source, e.target], id ∈ endpoints edges := fun id hid =>
    List.mem_flatMap.mpr ⟨e, he, hid⟩
  simp only [Function.comp_apply, EdgeList.callOf, Edge.rename, Call.offer?,
    IdMap.toDense?_map h (hmem e.source (by simp)), IdMap.toDense?_map h (hmem e.target (by simp))]

/-! ## What is built -/

section Build

variable {nodes renamed : IdMap} {s : RelationshipSettings} {t u : Intake} {l : Ledger}

/-- The relationships of a node are merged alike. -/
theorem mergeOwn_alike (hnodes : nodes.Renamed f renamed) (aggregation : Aggregation)
    {relationships : List StoredRelationship} (hdense : AllBelow nodes.nodeCount relationships) {node : Nat}
    (hnode : node < nodes.nodeCount) :
    Alike (Fault.Renames f) Eq (mergeOwn nodes aggregation relationships node)
      (mergeOwn renamed aggregation relationships node) := by
  rw [mergeOwn, mergeOwn, Aggregation.merge]
  cases htaken : (ownOf node relationships).foldlM aggregation.take [] with
  | ok row => exact .ok rfl
  | error target =>
    obtain ⟨x, hx, hfirst⟩ := Aggregation.mem_of_foldlM_take_eq_error htaken
    obtain ⟨r, hr, rfl⟩ := List.mem_map.mp hx
    have htarget : target < nodes.nodeCount := hfirst ▸ (hdense r (List.mem_filter.mp hr).1).2
    have hrenames := Fault.Renames.duplicateRelationship (f := f) (nodes.toExternal node)
      (nodes.toExternal target)
    rw [← hnodes.toExternal_eq node hnode, ← hnodes.toExternal_eq target htarget] at hrenames
    exact .error hrenames

/-- Intakes into which the same has arrived build alike. -/
theorem Intake.KeepsLedger.build_alike (ht : KeepsLedger nodes s t l) (hu : KeepsLedger renamed s u l)
    (hnodes : nodes.Renamed f renamed) (hdense : AllBelow nodes.nodeCount l.arrived) :
    Alike (Fault.Renames f) Eq t.build u.build := by
  have hpartitions : u.partitions = t.partitions := by
    rw [hu.partitions_eq, ht.partitions_eq, hnodes.nodeCount_eq]
  have hsorted : AllBelow nodes.nodeCount (l.arrived.mergeSort StoredRelationship.le) := fun r hr =>
    hdense r ((List.mergeSort_perm _ _).mem_iff.mp hr)
  have hbelow : ∀ partition ∈ t.partitions, ∀ node ∈ partition.nodes, node < nodes.nodeCount := by
    intro partition hpartition node hnode
    rw [← List.mem_range, ← flatMap_nodes_rangePartition nodes.nodeCount (max s.concurrency 1),
      ← ht.partitions_eq]
    exact List.mem_flatMap.mpr ⟨partition, hpartition, hnode⟩
  have hworkers : Alike (Fault.Renames f) Eq (Pool.run t.partitions.length t.packTask)
      (Pool.run u.partitions.length u.packTask) := by
    rw [ht.run_packTask hdense, hu.run_packTask (hnodes.nodeCount_eq ▸ hdense), hpartitions]
    refine .mapM fun partition hpartition => ?_
    refine (Alike.mapM fun node hnode => ?_).map fun rows _ hrows => congrArg _ hrows
    exact mergeOwn_alike hnodes _ hsorted (hbelow partition hpartition node hnode)
  by_cases hconcurrency : 1 ≤ s.concurrency
  · rw [build_eq (ht.settings_eq ▸ hconcurrency), build_eq (hu.settings_eq ▸ hconcurrency), ht.settings_eq,
      hu.settings_eq]
    exact hworkers.map fun packed _ hpacked => by rw [hpacked]
  · -- nobody is there to build anything
    have hnobody : ∀ v : Intake, v.settings = s →
        v.build = .error (.configuration "concurrency must be at least 1") := fun v hv => by
      rw [build, hv, checkConcurrency, if_pos (by omega)]
      rfl
    rw [hnobody t ht.settings_eq, hnobody u hu.settings_eq]
    exact .error (.nameless id)

end Build

/-! ## What is loaded -/

theorem Graph.renamed_ofBuild {nodes renamed : IdMap} (h : nodes.Renamed f renamed) (r : Relationships) :
    (ofBuild nodes r).Renamed f (ofBuild renamed r) := by
  refine ⟨renamed, h, ?_⟩
  rw [ofBuild, ofBuild, h.nodeCount_eq, withNodes]

/-- **Loading sees the order of the ids, not the ids.**  From the list with new names a graph is loaded
that differs in the names of its nodes only, or none for the same reason, told of the new names. -/
theorem EdgeList.load_rename {list : EdgeList} (h : KeepsOrder f (endpoints list.edges))
    (s : RelationshipSettings) (chunkSize : Nat) :
    Alike (Failure.Renames f) (Graph.Renamed f) (list.load s chunkSize)
      ((list.rename f).load s chunkSize) := by
  have hnodes := endpoints_rename (f := f) list.edges ▸ IdMap.renamed_ofIds h
  have hledger := keepsLedger_intakeOf (list.edges.map (Edge.rename f)) s
  rw [offers_rename h] at hledger
  have hdense := @allBelow_offers (IdMap.ofIds (endpoints list.edges)) (fun _ _ => IdMap.dense_lt_ofIds) s
    (list.edges.map callOf)
  have hbuild := (keepsLedger_intakeOf list.edges s).build_alike hledger hnodes hdense
  rw [load_eq, load_eq]
  refine ((hbuild.map fun r other hr => ?_).orFail).inContext _
  subst hr
  exact Graph.renamed_ofBuild hnodes r

end PackedGraph
