import Mathlib.Data.List.Dedup
import PackedGraph.CommandLine.Run
import PackedGraph.Proofs.EdgeList.Loading
import PackedGraph.Proofs.Topology.Footprint

/-!
# What is known about a graph before it is loaded

Loading is admitted with bounds that are taken from the number of edges.  The number of relationships keeps to
its bound whatever the edges are.  The nodes are the distinct endpoints, and of these there are up to two for
every edge: the bound allows two where relationships are stored in both directions, but only one where they
are directed.

Main statement: `EdgeList.admission_bounds`.
-/

namespace PackedGraph

/-! ## Larger graphs have larger estimates -/

theorem ceilDiv_mono {a b : Nat} (h : a ≤ b) (step : Nat) : ceilDiv a step ≤ ceilDiv b step :=
  Nat.div_le_div_right (by omega)

theorem Paged.bytes_mono (elementBytes : Nat) {a b : Nat} (h : a ≤ b) :
    bytes elementBytes a ≤ bytes elementBytes b :=
  Nat.add_le_add (Nat.mul_le_mul_right _ h) (Nat.mul_le_mul_right _ (ceilDiv_mono h pageSize))

theorem IdMap.estimate_mono {a b : Nat} (h : a ≤ b) : estimate a ≤ estimate b := by
  have := Paged.bytes_mono 8 h
  unfold estimate
  omega

/-- The worst case grows with the counts. -/
theorem Adjacency.estimate_mono {d e : Dimensions} (hnodes : d.nodes ≤ e.nodes)
    (hrelationships : d.relationships ≤ e.relationships) : (estimate d).max ≤ (estimate e).max := by
  have hmost := Nat.mul_le_mul_right Varint.maxEncodedSize hrelationships
  have hpages := Nat.mul_le_mul_right Paged.tableEntry (ceilDiv_mono hmost bytesPerPage)
  have hdegrees := Paged.bytes_mono 4 hnodes
  have haddresses := Paged.bytes_mono 8 hnodes
  unfold estimate
  simp only
  omega

theorem MemoryRange.max_add_mono {a b c d : MemoryRange} (hleft : a.max ≤ b.max) (hright : c.max ≤ d.max) :
    (a + c).max ≤ (b + d).max := by
  change Nat.min (a.max + c.max) byteLimit ≤ Nat.min (b.max + d.max) byteLimit
  exact min_le_min_right _ (Nat.add_le_add hleft hright)

theorem Relationships.estimate_mono {d e : Dimensions} (hnodes : d.nodes ≤ e.nodes)
    (hrelationships : d.relationships ≤ e.relationships) (hasWeights : Bool) :
    (estimate d hasWeights).max ≤ (estimate e hasWeights).max := by
  unfold estimate
  cases hasWeights with
  | false => exact Adjacency.estimate_mono hnodes hrelationships
  | true =>
    refine MemoryRange.max_add_mono (Adjacency.estimate_mono hnodes hrelationships) ?_
    exact Nat.add_le_add (Paged.bytes_mono 8 hrelationships) (Paged.bytes_mono 8 hnodes)

theorem Graph.estimate_mono {d e : Dimensions} (hnodes : d.nodes ≤ e.nodes)
    (hrelationships : d.relationships ≤ e.relationships) (hasWeights : Bool) :
    (estimate d hasWeights).max ≤ (estimate e hasWeights).max :=
  MemoryRange.max_add_mono (IdMap.estimate_mono hnodes)
    (Relationships.estimate_mono hnodes hrelationships hasWeights)

/-! ## Nodes and relationships of a loaded graph -/

/-- An edge is stored once, or twice where relationships are stored in both directions. -/
theorem length_fanOut_le (s : RelationshipSettings) (offer : StoredRelationship) :
    (s.fanOut offer).length ≤ if s.orientation = .undirected then 2 else 1 := by
  unfold RelationshipSettings.fanOut RelationshipSettings.stored
  split
  · exact Nat.zero_le _
  · rw [List.length_map]
    cases s.orientation with
    | natural => simp [Orientation.stored]
    | reverse => simp [Orientation.stored]
    | undirected =>
      rw [Orientation.stored]
      split <;> simp

theorem length_flatMap_fanOut_le (s : RelationshipSettings) (accepted : List StoredRelationship) :
    (accepted.flatMap s.fanOut).length ≤
      accepted.length * if s.orientation = .undirected then 2 else 1 := by
  induction accepted with
  | nil => simp
  | cons offer accepted ih =>
    have hoffer := length_fanOut_le s offer
    rw [List.flatMap_cons, List.length_append, List.length_cons, Nat.succ_mul]
    omega

/-- The nodes are the distinct ids. -/
theorem IdMap.nodeCount_ofIds (ids : List UInt64) : (ofIds ids).nodeCount = ids.dedup.length := by
  rw [ofIds_eq, nodeCount_ofAscending]
  refine ((List.perm_ext_iff_of_nodup (nodup_ascendingOf ids) ids.nodup_dedup).mpr fun id => ?_).length_eq
  rw [mem_ascendingOf, List.mem_dedup]

namespace EdgeList

/-- There are at most two nodes for every edge. -/
theorem nodeCount_ofIds_endpoints_le (edges : List Edge) :
    (IdMap.ofIds (endpoints edges)).nodeCount ≤ 2 * edges.length := by
  rw [IdMap.nodeCount_ofIds, ← length_endpoints]
  exact (endpoints edges).dedup_sublist.length_le

/-- The nodes of a loaded graph are the distinct endpoints. -/
theorem nodeCount_load {list : EdgeList} {s : RelationshipSettings} {chunkSize : Nat} {g : Graph}
    (h : list.load s chunkSize = .ok g) : g.nodeCount = (endpoints list.edges).dedup.length := by
  obtain ⟨r, -, rfl⟩ := exists_build_of_load h
  exact IdMap.nodeCount_ofIds (endpoints list.edges)

/-- An edge is stored at most as often as the orientation asks for. -/
theorem relationshipCount_load_le {list : EdgeList} {s : RelationshipSettings} {chunkSize : Nat} {g : Graph}
    (hfits : 2 * list.size ≤ largestWord) (h : list.load s chunkSize = .ok g) :
    g.relationshipCount ≤ list.size * if s.orientation = .undirected then 2 else 1 := by
  obtain ⟨r, hbuild, rfl⟩ := exists_build_of_load h
  have hvalid := valid_endpoints hfits
  have hcalls := @namesBatch_callOf list.edges
  have hledger := Intake.keepsLedger_close (IdMap.ofIds (endpoints list.edges)) s 1 (list.edges.map callOf)
  have hcount := hledger.relationshipCount_le hvalid (allBelow_arrivals hvalid hcalls) hbuild
  have hsame : (Graph.ofBuild (IdMap.ofIds (endpoints list.edges)) r).relationshipCount =
      r.adjacency.relationshipCount := by
    simp [Graph.relationshipCount, Graph.ofBuild]
  have hoffers : (offers (IdMap.ofIds (endpoints list.edges)) s (list.edges.map callOf)).length ≤ list.size :=
    (List.length_filterMap_le _ _).trans_eq (List.length_map _)
  calc _ = r.adjacency.relationshipCount := hsame
    _ ≤ (arrivals (IdMap.ofIds (endpoints list.edges)) s 1 (list.edges.map callOf)).length := hcount
    _ = ((offers (IdMap.ofIds (endpoints list.edges)) s (list.edges.map callOf)).flatMap s.fanOut).length :=
        (Ledger.perm_arrivals _ s hcalls).length_eq
    _ ≤ _ := length_flatMap_fanOut_le s _
    _ ≤ _ := Nat.mul_le_mul_right _ hoffers

/-- **Where loading keeps to what it was admitted with.**  Whatever the edges and the options: the loaded graph
has at most as many relationships as loading was admitted with, and its nodes are the distinct endpoints.
There are at most as many as admitted just in case relationships are undirected or there are no more distinct
endpoints than edges; and then the worst case for the loaded graph is at most the one that was admitted. -/
theorem admission_bounds (o : Options) {list : EdgeList} (hfits : 2 * list.size ≤ largestWord)
    {workers chunkSize : Nat} {g : Graph}
    (h : list.load (o.relationshipSettings list.weighted workers) chunkSize = .ok g) :
    g.relationshipCount ≤ (list.loadDimensions o.directed).relationships ∧
      g.nodeCount = (endpoints list.edges).dedup.length ∧
      (g.nodeCount ≤ (list.loadDimensions o.directed).nodes ↔
        o.directed = false ∨ (endpoints list.edges).dedup.length ≤ list.size) ∧
      (g.nodeCount ≤ (list.loadDimensions o.directed).nodes → ∀ hasWeights,
        (Graph.estimate g.dimensions hasWeights).max ≤
          (Graph.estimate (list.loadDimensions o.directed) hasWeights).max) := by
  have hrelationships : g.relationshipCount ≤ (list.loadDimensions o.directed).relationships := by
    refine (relationshipCount_load_le hfits h).trans_eq ?_
    cases hdirected : o.directed <;> simp [Options.relationshipSettings, loadDimensions, hdirected]
  have hnodes := nodeCount_load h
  refine ⟨hrelationships, hnodes, ?_, fun hbound => Graph.estimate_mono hbound hrelationships⟩
  have htwo := nodeCount_ofIds_endpoints_le list.edges
  rw [IdMap.nodeCount_ofIds] at htwo
  rw [hnodes, loadDimensions]
  unfold size at *
  cases o.directed with
  | false =>
    simp
    omega
  | true => simp

/-- Two directed relationships between two nodes keep to the bounds. -/
theorem admission_bounds_of_there_and_back :
    ∃ g, (EdgeList.mk [⟨1, 2, 1⟩, ⟨2, 1, 1⟩] false).load
        (Options.relationshipSettings { directed := true } false 1) 100000 = .ok g ∧
      g.nodeCount = 2 ∧ (Graph.estimate g.dimensions false).max ≤
        (Graph.estimate ((EdgeList.mk [⟨1, 2, 1⟩, ⟨2, 1, 1⟩] false).loadDimensions true) false).max := by
  have hfits : 2 * (EdgeList.mk [⟨1, 2, 1⟩, ⟨2, 1, 1⟩] false).size ≤ largestWord := by decide
  obtain ⟨g, hload⟩ := @exists_load _ hfits
    (Options.relationshipSettings { directed := true } false 1) (by decide) (by decide) 100000
  obtain ⟨-, hnodes, hbound, hestimate⟩ := admission_bounds { directed := true } hfits hload
  exact ⟨g, hload, hnodes, hestimate (hbound.mpr (Or.inr (by decide))) false⟩

/-- One directed relationship has two nodes where one has been admitted, and the worst case for the loaded graph
is above the one that was admitted. -/
theorem admitted_with_too_few_nodes :
    ∃ g, (EdgeList.mk [⟨1, 2, 1⟩] false).load
        (Options.relationshipSettings { directed := true } false 1) 100000 = .ok g ∧
      ((EdgeList.mk [⟨1, 2, 1⟩] false).loadDimensions true).nodes < g.nodeCount ∧
      (Graph.estimate ((EdgeList.mk [⟨1, 2, 1⟩] false).loadDimensions true) false).max <
        (Graph.estimate g.dimensions false).max := by
  obtain ⟨g, hload⟩ := @exists_load ⟨[⟨1, 2, 1⟩], false⟩ (by decide)
    (Options.relationshipSettings { directed := true } false 1) (by decide) (by decide) 100000
  have hnodes : g.nodeCount = 2 := nodeCount_load hload
  refine ⟨g, hload, hnodes ▸ by decide, ?_⟩
  have hleast := Graph.estimate_mono (d := ⟨2, 0⟩) (e := g.dimensions) hnodes.ge (Nat.zero_le _) false
  exact Nat.lt_of_lt_of_le (by decide) hleast

end EdgeList

end PackedGraph
