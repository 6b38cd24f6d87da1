import PackedGraph.Proofs.Analysis.Betweenness
import PackedGraph.Proofs.Analysis.RoundedCosts
import PackedGraph.Proofs.Numeric.Sums

/-!
# What a search by weight leaves behind

Weights are positive doubles, and their sums may overflow.  A node that the source reaches at infinite cost only
is never settled, so the walk back does not empty its buffers, and what has been noted about it misleads the
searches from later sources.  Where there is no such node, the buffers are new after every search, and what a
source adds to the scores does not depend on the sources before it.

Main statements: `Betweenness.visit_eq_new_iff` and `buffers_new_iff`.
-/

namespace PackedGraph

/-- Costs of paths are ranked by their places. -/
def doubleRanks : CostRank Float (WithTop (WithBot ℚ)) where
  sound := NotNegative
  rank := place
  usable w := w.isFinite = true ∧ 0 ≤ value w
  sound_zero := notNegative_of_value packed_zero.1.isFinite packed_zero.2.ge
  rank_zero_lt := by
    rw [show (PathCost.zero : Float) = 0 from rfl, place_of_isFinite packed_zero.1.isFinite]
    exact (valuePlace_bounds _).2
  sound_unreached := notNegative_infinity
  rank_unreached := place_infinity
  less_iff _ _ ha hb := decide_eq_true_iff.trans (lt_iff_place ha.1 hb.1)
  same_iff _ _ ha hb := beq_iff_place ha.1 hb.1
  sound_add _ _ hc hw := hc.add hw.1 hw.2
  le_add _ _ hc hw := (place_le_place_add hc hw.1 hw.2).2
  add_le_add _ _ _ hc hc' hle hw := place_add_le_place_add hc hc' hle hw.1 hw.2

/-- Whatever a source reaches in a graph, it reaches by a walk the weights of which add up to a finite double. -/
def Graph.ReachesFinitely (g : Graph) (source : Nat) : Prop :=
  ∀ v c, WalkCost (g.weighted · 1) source v c → ∃ c', WalkCost (g.weighted · 1) source v c' ∧ c'.isFinite = true

namespace Search

variable {κ ρ : Type} [PathCost κ] [Reckoning ρ]

/-- Search from several sources with the same buffers. -/
def visitAll (measure : Measure κ) (sources : List Nat) (state : Search κ ρ × Array ρ) : Search κ ρ × Array ρ :=
  sources.foldl (fun state source => visit measure source state.1 state.2) state

/-- What a source adds to the scores when its search begins with new buffers. -/
def contribution (measure : Measure κ) (nodeCount source : Nat) : List (Nat × ρ) :=
  let s : Search κ ρ := searchBy measure source (new nodeCount measure.hasCosts)
  amounts source s.settled { s with settled := [] }

theorem visit_scores_new (measure : Measure κ) (nodeCount source : Nat) (scores : Array ρ) :
    (visit measure source (new nodeCount measure.hasCosts) scores).2 =
      addAmounts (contribution measure nodeCount source) scores :=
  accumulate_scores ..

theorem visitAll_concat (measure : Measure κ) (sources : List Nat) (source : Nat) (state : Search κ ρ × Array ρ) :
    visitAll measure (sources ++ [source]) state =
      visit measure source (visitAll measure sources state).1 (visitAll measure sources state).2 := by
  rw [visitAll, List.foldl_append]
  rfl

/-- Where every search leaves new buffers behind, all of them add what they would add alone. -/
theorem visitAll_new {measure : Measure κ} {nodeCount : Nat} {sources : List Nat}
    (h : ∀ source ∈ sources, ∀ scores : Array ρ,
      (visit measure source (new nodeCount measure.hasCosts) scores).1 = new nodeCount measure.hasCosts)
    (scores : Array ρ) :
    visitAll measure sources (new nodeCount measure.hasCosts, scores) =
      (new nodeCount measure.hasCosts, addAmounts (sources.flatMap (contribution measure nodeCount)) scores) := by
  induction sources generalizing scores with
  | nil => rfl
  | cons source sources ih =>
    obtain ⟨hsource, hsources⟩ := List.forall_mem_cons.mp h
    have hvisit : visit measure source (new nodeCount measure.hasCosts) scores =
        (new nodeCount measure.hasCosts, addAmounts (contribution measure nodeCount source) scores) :=
      Prod.ext (hsource scores) (visit_scores_new measure nodeCount source scores)
    rw [visitAll, List.foldl_cons, hvisit]
    refine (ih hsources _).trans ?_
    rw [List.flatMap_cons, addAmounts, addAmounts, addAmounts, List.foldl_append]

/-- Searches one after the other find new buffers every time exactly when each of them leaves new buffers behind
where it finds such. -/
theorem visitAll_new_iff {measure : Measure κ} {nodeCount : Nat} {sources : List Nat} {leavesNew : Nat → Prop}
    (h : ∀ source ∈ sources, ∀ scores : Array ρ,
      (visit measure source (new nodeCount measure.hasCosts) scores).1 = new nodeCount measure.hasCosts ↔
        leavesNew source)
    (scores : Array ρ) :
    (∀ earlier, earlier <+: sources →
        (visitAll measure earlier (new nodeCount measure.hasCosts, scores)).1 = new nodeCount measure.hasCosts) ↔
      ∀ source ∈ sources, leavesNew source := by
  constructor
  · intro hbuffers source hmem
    obtain ⟨earlier, later, rfl⟩ := List.append_of_mem hmem
    have hbefore := hbuffers earlier (List.prefix_append _ _)
    have hafter := hbuffers (earlier ++ [source]) ⟨later, by simp⟩
    rw [visitAll_concat, hbefore] at hafter
    exact (h source hmem _).mp hafter
  · intro hnew earlier hearlier
    have hall := visitAll_new (fun source hmem scores =>
      (h source (hearlier.subset hmem) scores).mpr (hnew source (hearlier.subset hmem))) scores
    exact congrArg Prod.fst hall

end Search

namespace Betweenness

variable {g : Graph} {source : Nat}

theorem value_pos_of_isUsableWeight {weight : Float} (h : isUsableWeight weight = true) :
    weight.isFinite = true ∧ 0 < value weight := by
  rw [isUsableWeight, Bool.and_eq_true, decide_eq_true_iff] at h
  obtain ⟨hpositive, hfinite⟩ := h
  rw [lt_iff_value packed_zero.1.isFinite hfinite, packed_zero.2] at hpositive
  exact ⟨hfinite, hpositive⟩

/-- Weights that have passed the check can be added up. -/
theorem usable_of_checkWeights (hg : g.Built) (h : checkWeights g = .ok ()) (u : Nat) :
    ∀ a ∈ g.weighted u 1, doubleRanks.usable a.2 := by
  intro a ha
  have hu : u ∈ g.nodeList := by
    refine List.mem_range.mpr (@Graph.Built.source_lt g hg u a.1 ((hg.perm_weighted u 1).mem_iff.mp ?_))
    exact List.mem_map_of_mem ha
  have hnone : (g.nodeList.find? fun node => !(g.weighted node 1).all fun r => isUsableWeight r.2) = none := by
    unfold checkWeights at h
    split at h
    · simp at h
    · split at h
      · simp at h
      · assumption
  have hall := List.find?_eq_none.mp hnone u hu
  rw [Bool.not_eq_true', Bool.not_eq_false, List.all_eq_true] at hall
  obtain ⟨hfinite, hpositive⟩ := value_pos_of_isUsableWeight (hall a ha)
  exact ⟨hfinite, hpositive.le⟩

/-- **One source.**  A search by weight leaves new buffers behind exactly when no node can be reached at
infinite cost only. -/
theorem visit_eq_new_iff {ρ : Type} [Reckoning ρ] (hg : g.Built) (hweights : checkWeights g = .ok ())
    (hsource : source < g.nodeCount) (scores : Array ρ) :
    (Search.visit (measureOf g true) source (Search.new g.nodeCount true) scores).1 =
        Search.new g.nodeCount true ↔ g.ReachesFinitely source := by
  have husable := usable_of_checkWeights hg hweights
  have hfinite : ∀ v c, WalkCost (g.weighted · 1) source v c → (doubleRanks.rank c < ⊤ ↔ c.isFinite = true) :=
    fun v c hwalk => (hwalk.sound husable).place_lt_top_iff
  rw [Search.visit_eq]
  refine (Search.accumulate_cheapestFirst_eq_new_iff husable (lt_of_mem_weighted hg) hsource
    (sum_length_weighted hg 1).le scores).trans ?_
  refine forall₃_congr fun v c _ => exists_congr fun c' => and_congr_right fun hwalk => hfinite v c' hwalk

end Betweenness

/-- **The buffers between two sources.**  Searches by weight from any sources, one after the other, find new
buffers every time exactly when every source reaches at finite cost whatever it reaches.  Then what they add to
the scores is, source by source, what a search with new buffers adds. -/
theorem buffers_new_iff {g : Graph} (hg : g.Built) (hweights : Betweenness.checkWeights g = .ok ())
    {sources : List Nat} (hsources : ∀ source ∈ sources, source < g.nodeCount) (scores : Array Float) :
    ((∀ earlier, earlier <+: sources →
        (Search.visitAll (Betweenness.measureOf g true) earlier (Search.new g.nodeCount true, scores)).1 =
          Search.new g.nodeCount true) ↔ ∀ source ∈ sources, g.ReachesFinitely source) ∧
    ((∀ source ∈ sources, g.ReachesFinitely source) →
      (Search.visitAll (Betweenness.measureOf g true) sources (Search.new g.nodeCount true, scores)).2 =
        Search.addAmounts (sources.flatMap (Search.contribution (Betweenness.measureOf g true) g.nodeCount))
          scores) := by
  have hvisit : ∀ source ∈ sources, ∀ scores : Array Float,
      (Search.visit (Betweenness.measureOf g true) source (Search.new g.nodeCount true) scores).1 =
        Search.new g.nodeCount true ↔ g.ReachesFinitely source :=
    fun source hmem scores => Betweenness.visit_eq_new_iff hg hweights (hsources source hmem) scores
  refine ⟨Search.visitAll_new_iff hvisit scores, fun hreaches => ?_⟩
  have hall := @Search.visitAll_new _ Float _ _ (Betweenness.measureOf g true) g.nodeCount sources
    (fun source hmem scores => (hvisit source hmem scores).mpr (hreaches source hmem)) scores
  exact congrArg Prod.snd hall

/-- The costs of walks in the graph with a detour. -/
theorem WalkCost.detour {source v : Nat} {c : Float} (h : WalkCost detourRows source v c) :
    c = 0 ∨ v = 1 ∧ c = 1 ∨ v = 2 ∧ (c = 1 ∨ c = 2) := by
  have hsums : (0 : Float) + 1 = 1 ∧ (0 : Float) + 2 = 2 ∧ (1 : Float) + 1 = 2 := by decide +kernel
  induction h with
  | start => exact .inl rfl
  | @step u v c w _ hmem ih =>
    match u, hmem with
    | 0, hmem =>
      obtain rfl : c = 0 := by simpa using ih
      simp only [detourRows, List.mem_cons, Prod.mk.injEq, List.not_mem_nil, or_false] at hmem
      rcases hmem with ⟨rfl, rfl⟩ | ⟨rfl, rfl⟩
      · exact .inr (.inl ⟨rfl, hsums.1⟩)
      · exact .inr (.inr ⟨rfl, .inr hsums.2.1⟩)
    | 1, hmem =>
      simp only [detourRows, List.mem_cons, Prod.mk.injEq, List.not_mem_nil, or_false, or_self] at hmem
      obtain ⟨rfl, rfl⟩ := hmem
      rcases ih with rfl | ⟨-, rfl⟩ | ⟨hne, -⟩
      · exact .inr (.inr ⟨rfl, .inl hsums.1⟩)
      · exact .inr (.inr ⟨rfl, .inr hsums.2.2⟩)
      · exact absurd hne (by decide)

/-- Its weights are small, so all its nodes find new buffers. -/
theorem buffers_new_of_detour :
    ∃ g : Graph, g.Built ∧ Betweenness.checkWeights g = .ok () ∧ (∀ source ∈ [0, 1, 2], source < g.nodeCount) ∧
      (∀ source ∈ [0, 1, 2], g.ReachesFinitely source) ∧
      ∀ earlier, earlier <+: [0, 1, 2] →
        (Search.visitAll (Betweenness.measureOf g true) earlier
          (Search.new g.nodeCount true, Array.replicate 3 (0 : Float))).1 = Search.new g.nodeCount true := by
  obtain ⟨g, hg, hcount, -, hstored, hweighted⟩ := exists_detour
  have hrows : (g.weighted · 1) = detourRows := funext hweighted
  have hexact : ∀ source < g.nodeCount, AddsUp doubles (g.weighted · 1) source := by
    intro source _
    rw [hrows]
    exact addsUp_detourRows source
  have hcheck := Betweenness.checkWeights_eq hstored hexact
  have hsources : ∀ source ∈ [0, 1, 2], source < g.nodeCount := by
    rw [hcount]
    decide
  have hreaches : ∀ source ∈ [0, 1, 2], g.ReachesFinitely source := by
    intro source _ v c hwalk
    refine ⟨c, hwalk, ?_⟩
    rw [hrows] at hwalk
    rcases hwalk.detour with rfl | ⟨-, rfl⟩ | ⟨-, rfl | rfl⟩
    · exact packed_zero.1.isFinite
    · exact value_one.1
    · exact value_one.1
    · exact value_two.1
  obtain ⟨hiff, -⟩ := buffers_new_iff hg hcheck hsources (Array.replicate 3 (0 : Float))
  exact ⟨g, hg, hcheck, hsources, hreaches, hiff.mpr hreaches⟩

/-! ## An overflow -/

/-- The relationships of a graph with five nodes, two of whose weights have no finite sum. -/
def overflowCalls : List Call :=
  [.add 0 4 (some 1.7e308), .add 4 2 (some 1.7e308), .add 1 3 (some 1.7e308), .add 3 4 (some 1.7e308)]

/-- The rows of that graph. -/
def overflowRows : Nat → List (Nat × Float)
  | 0 => [(4, 1.7e308)]
  | 1 => [(3, 1.7e308)]
  | 3 => [(4, 1.7e308)]
  | 4 => [(2, 1.7e308)]
  | _ => []

/-- A graph with those rows. -/
theorem exists_overflow : ∃ g : Graph, g.Built ∧ g.nodeCount = 5 ∧ g.isUndirected = false ∧
    g.isWeighted = true ∧ ∀ u, g.weighted u 1 = overflowRows u := by
  refine exists_graph_of_rows (IdMap.valid_identity (by decide)) (by decide : ∀ call ∈ overflowCalls, call.NamesBatch 0)
    (by decide +kernel) (fun u => ?_) fun u hu => ?_
  · match u with
    | 0 | 1 | 2 | 3 | 4 => decide
    | u + 5 => exact List.Pairwise.nil
  · match u, hu with
    | u + 5, _ => rfl

/-- Its weights pass the check, and are what a search by weight goes by. -/
theorem exists_measured_overflow : ∃ g : Graph, g.Built ∧ g.nodeCount = 5 ∧ g.isUndirected = false ∧
    Betweenness.measureOf g true = .weights overflowRows 4 ∧ Betweenness.checkWeights g = .ok () := by
  obtain ⟨g, hg, hcount, hundirected, hstored, hweighted⟩ := exists_overflow
  have hrows : (g.weighted · 1) = overflowRows := funext hweighted
  refine ⟨g, hg, hcount, hundirected, ?_, ?_⟩
  · have hlength := Betweenness.sum_length_weighted hg 1
    simp only [hcount, hweighted] at hlength
    change Measure.weights (g.weighted · 1) g.relationshipCount = _
    rw [hrows, ← hlength]
    rfl
  · have hnone : ((List.range 5).find? fun node =>
        !(overflowRows node).all fun r => Betweenness.isUsableWeight r.2) = none := by decide +kernel
    unfold Betweenness.checkWeights Graph.nodeList
    simp only [hstored, hcount, hweighted, hnone]
    rfl

/-- **The node that one search could not settle misleads later ones.**  No shortest path leads through the last
node, and a search from node 3 that begins with new buffers adds nothing to its score.  With the buffers that
the searches from nodes 0, 1 and 2 have left behind, it adds one. -/
theorem buffers_not_new_after_overflow :
    ∃ g : Graph, g.Built ∧ Betweenness.checkWeights g = .ok () ∧
      (Search.visit (Betweenness.measureOf g true) 0 (Search.new g.nodeCount true)
        (Array.replicate 5 (0 : Float))).1 ≠ Search.new g.nodeCount true ∧
      (Search.visitAll (Betweenness.measureOf g true) [3]
        (Search.new g.nodeCount true, Array.replicate 5 (0 : Float))).2[4]? = some 0 ∧
      (Search.visitAll (Betweenness.measureOf g true) [0, 1, 2, 3]
        (Search.new g.nodeCount true, Array.replicate 5 (0 : Float))).2[4]? = some 1 := by
  obtain ⟨g, hg, hcount, -, hmeasure, hcheck⟩ := exists_measured_overflow
  refine ⟨g, hg, hcheck, ?_⟩
  rw [hmeasure, hcount]
  refine ⟨fun hnew => ?_, by decide +kernel, by decide +kernel⟩
  have hleft := congrArg (Search.predecessorsOf · 2) hnew
  revert hleft
  decide +kernel

end PackedGraph
