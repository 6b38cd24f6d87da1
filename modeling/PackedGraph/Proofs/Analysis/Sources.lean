import PackedGraph.Proofs.Analysis.Outcome
import PackedGraph.Proofs.Analysis.Turns
import PackedGraph.Proofs.Analysis.WholeCosts

/-!
# Searching from one node of a graph

What the two searches find in a graph that can be built, with any types and orientations, with loops and with
parallel relationships.  By hops the marks are one more than the distances.  By weight the costs are the
distances, for weights that are positive and add up exactly, as small whole numbers do.  Either way all
shortest paths are counted, up to the limit, and the nodes in front of a node are those from which a
relationship completes a shortest path.

Main statements: `breadthFirst_counts_shortest_paths` and `cheapestFirst_counts_cheapest_paths`.
-/

namespace PackedGraph

variable {κ ρ : Type} [PathCost κ]

/-! ## A network -/

/-- Calls for relationships among five nodes: two pairs of parallel ones, a loop, and a node that no relationship
leads to. -/
def networkCalls : List Call :=
  [.add 0 1 (some 1), .add 0 2 (some 4), .add 1 2 (some 1), .add 1 2 (some 1), .add 1 3 (some 2), .add 1 3 (some 2),
    .add 2 3 (some 1), .add 3 3 (some 1), .add 4 0 (some 1)]

/-- The relationships of each of its nodes. -/
def networkRows : Nat → List (Nat × Float)
  | 0 => [(1, 1), (2, 4)]
  | 1 => [(2, 1), (2, 1), (3, 2), (3, 2)]
  | 2 => [(3, 1)]
  | 3 => [(3, 1)]
  | 4 => [(0, 1)]
  | _ => []

theorem networkRows_of_le {u : Nat} (hu : 5 ≤ u) : networkRows u = [] := by
  match u, hu with
  | u + 5, _ => rfl

theorem sorted_networkRows (u : Nat) : ((networkRows u).map Prod.fst).Pairwise (· ≤ ·) := by
  match u with
  | 0 | 1 | 2 | 3 | 4 => decide
  | u + 5 => exact List.Pairwise.nil

/-- A graph with those rows. -/
theorem exists_network : ∃ g : Graph, g.Built ∧ g.nodeCount = 5 ∧ (g.weighted · 1) = networkRows ∧
    g.targets = (fun u => (networkRows u).map Prod.fst) ∧ g.relationshipCount = 9 := by
  obtain ⟨g, hg, hcount, -, -, hweighted⟩ := exists_graph_of_rows (IdMap.valid_identity (by decide))
    (by decide : ∀ call ∈ networkCalls, call.NamesBatch 0) (by decide +kernel) sorted_networkRows
    fun u hu => networkRows_of_le hu
  refine ⟨g, hg, hcount, funext hweighted, targets_eq_of_rows hg hweighted sorted_networkRows, ?_⟩
  rw [← Betweenness.sum_length_weighted hg 1, hcount]
  simp only [hweighted]
  decide

/-! ## By hops -/

namespace Search.Outcome

variable {targets : Nat → List Nat} {source u v hops : Nat} {s : Search κ ρ}

/-- Exactly the nodes that can be reached are marked. -/
theorem mark_eq_zero_iff (h : s.Outcome (hopWays targets) source fun v => s.mark v - 1) :
    s.mark v = 0 ↔ ¬ (hopWays targets).Reaches source v := by
  refine ⟨fun hzero hreaches => ?_, fun hnot => (h.untouched v hnot).mark⟩
  obtain ⟨⟨path, hpath⟩, -⟩ := h.isDistance v hreaches
  have hnonneg := hpath.nonneg (positive_hopWays targets)
  rw [hzero, Nat.cast_zero] at hnonneg
  linarith

/-- The mark of a node is one more than its distance. -/
theorem mark_eq_succ_iff (h : s.Outcome (hopWays targets) source fun v => s.mark v - 1) :
    s.mark v = hops + 1 ↔ (hopWays targets).IsDistance source v hops := by
  constructor
  · intro hmark
    have hreaches : (hopWays targets).Reaches source v := by
      by_contra hnot
      rw [h.mark_eq_zero_iff.mpr hnot] at hmark
      exact absurd hmark (Nat.succ_ne_zero _).symm
    have hdistance := h.isDistance v hreaches
    rwa [hmark, Nat.cast_add, Nat.cast_one, add_sub_cancel_right] at hdistance
  · intro hdistance
    have hsame := hdistance.unique (h.isDistance v hdistance.reaches)
    rw [eq_sub_iff_add_eq] at hsame
    exact_mod_cast hsame.symm

/-- Every relationship to the next level puts its source in front of its target. -/
theorem count_predecessors_of_next (h : s.Outcome (hopWays targets) source fun v => s.mark v - 1)
    (hu : (hopWays targets).IsDistance source u hops) (hv : (hopWays targets).IsDistance source v (hops + 1)) :
    (s.predecessorsOf v).count u = (targets u).count v := by
  have hmarku := h.mark_eq_succ_iff.mpr hu
  have hmarkv : s.mark v = hops + 1 + 1 := h.mark_eq_succ_iff.mpr (by exact_mod_cast hv)
  have hnext : ((s.mark u : ℚ) - 1) + 1 = s.mark v - 1 := by
    rw [hmarku, hmarkv]
    push_cast
    ring
  rw [h.count_predecessors u v hu.reaches hv.reaches, hopWays, List.countP_map, List.count]
  refine List.countP_congr fun target _ => ?_
  rw [Function.comp_apply, decide_eq_true_iff, and_iff_left hnext, beq_iff_eq]

/-- Only nodes of the level before stand in front of a node. -/
theorem exists_hops_of_mem (h : s.Outcome (hopWays targets) source fun v => s.mark v - 1)
    (hu : u ∈ s.predecessorsOf v) :
    ∃ hops : Nat, (hopWays targets).IsDistance source u hops ∧ (hopWays targets).IsDistance source v (hops + 1) := by
  obtain ⟨hreachesu, hreachesv⟩ := h.reaches_of_mem v u hu
  have hpositive := List.count_pos_iff.mpr hu
  rw [h.count_predecessors u v hreachesu hreachesv, List.countP_pos_iff] at hpositive
  obtain ⟨a, ha, htight⟩ := hpositive
  obtain ⟨target, -, rfl⟩ := List.mem_map.mp ha
  obtain ⟨-, hnext⟩ := of_decide_eq_true htight
  obtain ⟨hops, hmark⟩ := Nat.exists_eq_add_one_of_ne_zero (mt h.mark_eq_zero_iff.mp (not_not.mpr hreachesu))
  have hdistance := h.isDistance v hreachesv
  rw [← hnext, hmark, Nat.cast_add, Nat.cast_one, add_sub_cancel_right] at hdistance
  exact ⟨hops, h.mark_eq_succ_iff.mp hmark, hdistance⟩

end Search.Outcome

variable [Reckoning ρ] {g : Graph} {source : Nat}

/-- **Searching by hops finds the distances and counts the shortest paths.**

From any node of a graph that can be built, a search with new buffers ends, and then the mark of a node is one
more than its distance if it can be reached, and zero if not.  Shortest paths are counted up to the limit,
parallel relationships making different ones.  A node stands in front of another as often as relationships
lead to it, if it is one hop nearer, and never if not.  The nodes that can be reached have been settled
once each, nearer ones first.  The way back leaves new buffers behind. -/
theorem breadthFirst_counts_shortest_paths (hg : g.Built) (hsource : source < g.nodeCount) (withCosts : Bool) :
    let s := (Search.new g.nodeCount withCosts : Search κ ρ).breadthFirst g.targets source
    let ways := hopWays g.targets
    (∃ turns, (Search.serveNext g.targets)^[turns] (Search.begun g.nodeCount withCosts source, [source]) = (s, [])) ∧
    s.Outcome ways source (fun v => s.mark v - 1) ∧
    (∀ v, s.mark v = 0 ↔ ¬ ways.Reaches source v) ∧
    (∀ v (hops : Nat), s.mark v = hops + 1 ↔ ways.IsDistance source v hops) ∧
    (∀ u v (hops : Nat), ways.IsDistance source u hops → ways.IsDistance source v (hops + 1) →
      (s.predecessorsOf v).count u = (g.targets u).count v) ∧
    (∀ v, ∀ u ∈ s.predecessorsOf v, ∃ hops : Nat,
      ways.IsDistance source u hops ∧ ways.IsDistance source v (hops + 1)) ∧
    ∀ scores, (s.accumulate source scores).1 = Search.new g.nodeCount withCosts := by
  have htargets : ∀ u, ∀ target ∈ g.targets u, target < g.nodeCount := fun u target h => hg.target_lt h
  have hcomplete := Search.complete_breadthFirst (κ := κ) (ρ := ρ) htargets hsource withCosts
  have houtcome := hcomplete.outcome
  exact ⟨Search.exists_turns_breadthFirst htargets hsource withCosts, houtcome, fun v => houtcome.mark_eq_zero_iff,
    fun v hops => houtcome.mark_eq_succ_iff, fun u v hops hu hv => houtcome.count_predecessors_of_next hu hv,
    fun v u hu => houtcome.exists_hops_of_mem hu, hcomplete.accumulate_fst⟩

/-- Three paths of two hops lead to the last node that can be reached, two of them through parallel
relationships. -/
theorem breadthFirst_counts_paths_of_network : ∃ g : Graph, g.Built ∧ 0 < g.nodeCount ∧
    (hopWays g.targets).IsDistance 0 3 2 ∧ ((hopWays g.targets).shortest 0 3).ncard = 3 ∧
    ¬ (hopWays g.targets).Reaches 0 4 ∧
    let s := (Search.new g.nodeCount false : Search Float Float).breadthFirst g.targets 0
    s.settled.reverse = [0, 1, 2, 3] ∧ s.predecessorsOf 3 = [2, 1, 1] ∧
      (s.accumulate 0 #[]).1 = Search.new g.nodeCount false := by
  obtain ⟨g, hg, hcount, -, htargets, -⟩ := exists_network
  have hsource : 0 < g.nodeCount := by rw [hcount]; decide
  have hsearch : (Search.new g.nodeCount false : Search Float Float).breadthFirst g.targets 0 =
      (Search.new 5 false).breadthFirst (fun u => (networkRows u).map Prod.fst) 0 := by
    rw [htargets, hcount]
  obtain ⟨-, houtcome, hzero, hsucc, -, -, hnew⟩ :=
    breadthFirst_counts_shortest_paths (κ := Float) (ρ := Float) hg hsource false
  rw [hsearch] at houtcome hzero hsucc
  have hpaths := houtcome.pathsTo_eq 3
  refine ⟨g, hg, hsource, (hsucc 3 2).mp (by decide +kernel), ?_, (hzero 4).mp (by decide +kernel), ?_, ?_, hnew #[]⟩
  · have hthree : ((Search.new 5 false : Search Float Float).breadthFirst
        (fun u => (networkRows u).map Prod.fst) 0).pathsTo 3 = 3 := by
      decide +kernel
    rw [hthree, pathLimit] at hpaths
    omega
  · rw [hsearch]
    decide +kernel
  · rw [hsearch]
    decide +kernel

/-! ## By weight -/

/-- **Searching by weight finds the least costs and counts the cheapest paths.**

Where weights are positive and add up exactly along paths that visit no node twice, a search with new buffers
ends, and then the nodes that can be reached are settled and have their least costs, and all others are
unreached.  Paths of least cost are counted up to the limit, parallel relationships making different ones.
A node stands in front of another once for every relationship whose weight is the difference of their costs,
and for no other.  The nodes have been settled once each, cheaper ones first, and each after all that stand in
front of it. -/
theorem cheapestFirst_counts_cheapest_paths (hg : g.Built) (hsource : source < g.nodeCount)
    (hadds : AddsUp doubles (g.weighted · 1) source) :
    let s := (Search.new g.nodeCount true : Search Float ρ).cheapestFirst (g.weighted · 1) g.relationshipCount source
    let ways := costWays doubles (g.weighted · 1)
    (∃ turns, (Search.takeNext (g.weighted · 1))^[turns]
      (Search.opened g.nodeCount source, [⟨PathCost.zero, source⟩]) = (s, [])) ∧
    s.Outcome ways source (fun v => value (s.costOf v)) ∧
    (∀ v, s.mark v ≠ 0 ↔ ways.Reaches source v) ∧
    (∀ v, (s.costOf v).isFinite = true ↔ ways.Reaches source v) ∧
    (∀ v, ¬ ways.Reaches source v → s.costOf v = PathCost.unreached) ∧
    ∀ u v, ways.Reaches source u → ways.Reaches source v → (s.predecessorsOf v).count u =
      (g.weighted u 1).countP fun a => decide (a.1 = v ∧ value (s.costOf u) + value a.2 = value (s.costOf v)) := by
  have htargets := Betweenness.lt_of_mem_weighted hg
  have hcount := (Betweenness.sum_length_weighted hg 1).le
  have houtcome := (Search.complete_cheapestFirst (ρ := ρ) hadds htargets hsource hcount).outcome
  obtain ⟨hend, -⟩ := Search.settling_cheapestFirst (ρ := ρ) hadds htargets hsource hcount
  refine ⟨Search.exists_turns_cheapestFirst hadds htargets hsource hcount, houtcome, fun v => ?_, fun v => ?_,
    fun v hv => (houtcome.untouched v hv).costOf, fun u v hu hv => ?_⟩
  · rw [hend.mark_iff, houtcome.mem_settled_iff]
  · rw [← houtcome.mem_settled_iff]
    exact (hend.mem_settled_iff v).symm
  · rw [houtcome.count_predecessors u v hu hv, costWays, List.countP_map]
    rfl

/-- The weights of the network are small whole numbers. -/
theorem wholeWeights_networkRows : WholeWeights networkRows 5 fun _ => 4 := by
  have hlisted : ∀ u < 5, ∀ a ∈ networkRows u, ∃ n < 5, 0 < n ∧ a.2 = natToFloat n := by decide +kernel
  have hnode : ∀ u, ∀ a ∈ networkRows u, u < 5 := by
    intro u a ha
    by_contra hge
    rw [networkRows_of_le (Nat.le_of_not_lt hge)] at ha
    exact List.not_mem_nil ha
  constructor
  case source_lt => exact hnode
  case whole =>
    intro u a ha
    obtain ⟨n, hle, hn, hweight⟩ := hlisted u (hnode u a ha) a ha
    exact ⟨n, hn, Nat.le_of_lt_succ hle, hweight ▸ (value_of_whole hn (by omega)).2⟩
  case sum_lt => decide

/-- Two hops are dearer than three here: four paths of least cost lead to the last node that can be reached, and
the direct relationship to the node before it is not on any of them. -/
theorem cheapestFirst_counts_paths_of_network : ∃ g : Graph, g.Built ∧ 0 < g.nodeCount ∧
    AddsUp doubles (g.weighted · 1) 0 ∧ (costWays doubles (g.weighted · 1)).IsDistance 0 3 3 ∧
    ((costWays doubles (g.weighted · 1)).shortest 0 3).ncard = 4 ∧
    ¬ (costWays doubles (g.weighted · 1)).Reaches 0 4 ∧
    let s := (Search.new g.nodeCount true : Search Float Float).cheapestFirst (g.weighted · 1) g.relationshipCount 0
    s.settled.reverse = [0, 1, 2, 3] ∧ s.predecessorsOf 2 = [1, 1] ∧ s.predecessorsOf 3 = [2, 1, 1] := by
  obtain ⟨g, hg, hcount, hweighted, -, hrelationships⟩ := exists_network
  have hsource : 0 < g.nodeCount := by rw [hcount]; decide
  have hadds : AddsUp doubles (g.weighted · 1) 0 := by
    rw [hweighted]
    exact wholeWeights_networkRows.addsUp 0
  have hsearch : (Search.new g.nodeCount true : Search Float Float).cheapestFirst (g.weighted · 1)
      g.relationshipCount 0 = (Search.new 5 true).cheapestFirst networkRows 9 0 := by
    rw [hweighted, hrelationships, hcount]
  obtain ⟨-, houtcome, -, hreached, -, -⟩ := cheapestFirst_counts_cheapest_paths (ρ := Float) hg hsource hadds
  rw [hsearch] at houtcome hreached
  have hcost : ((Search.new 5 true : Search Float Float).cheapestFirst networkRows 9 0).costOf 3 = natToFloat 3 := by
    decide +kernel
  obtain ⟨hfinite, hvalue⟩ := value_of_whole (by decide : 0 < 3) (by decide)
  have hdistance := houtcome.isDistance 3 ((hreached 3).mp (hcost ▸ hfinite))
  have hpaths := houtcome.pathsTo_eq 3
  refine ⟨g, hg, hsource, hadds, ?_, ?_, fun hreaches => ?_, ?_, ?_, ?_⟩
  · rw [hcost, hvalue] at hdistance
    exact_mod_cast hdistance
  · have hfour : ((Search.new 5 true : Search Float Float).cheapestFirst networkRows 9 0).pathsTo 3 = 4 := by
      decide +kernel
    rw [hfour, pathLimit] at hpaths
    omega
  · exact absurd ((hreached 4).mpr hreaches) (by decide +kernel)
  · rw [hsearch]
    decide +kernel
  · rw [hsearch]
    decide +kernel
  · rw [hsearch]
    decide +kernel

end PackedGraph
