import PackedGraph.Analysis.Betweenness
import PackedGraph.Proofs.Analysis.BreadthFirst
import PackedGraph.Proofs.Analysis.CheapestFirst
import PackedGraph.Proofs.Analysis.Dependencies
import PackedGraph.Proofs.Graph.Built
import PackedGraph.Proofs.Numeric.Quotients
import PackedGraph.Proofs.Workers.Batches

/-!
# Betweenness is Brandes' sum

A search from one source, by hops or by weight, finds all shortest paths from it, and the walk back adds to
every node's score the shares of those that lead through the node.  So does every other search, since each
begins with new buffers; hence it does not matter which worker searches from which source, or when.

Main statement: `PackedGraph.betweenness_of_built`.
-/

namespace PackedGraph

/-! ## Lengths -/

/-- Finite doubles are costs that stand for their values. -/
def doubles : CostReading Float where
  finite x := x.isFinite = true
  value := value
  finite_zero := by decide
  value_zero := packed_zero.2
  not_finite_unreached := by decide
  less_unreached _ hx := decide_eq_true (isFinite_lt_infinity hx)
  less_iff _ _ hx hy := decide_eq_true_iff.trans (lt_iff_value hx hy)
  same_iff _ _ hx hy := beq_iff_value hx hy

/-- The relationships of a graph with their lengths: one hop each, or their weights. -/
def Graph.ways (g : Graph) (byWeight : Bool) : Ways :=
  if byWeight then costWays doubles (g.weighted · 1) else hopWays g.targets

/-! ## The share of one source -/

open Classical in
/-- The pairs of other nodes between which a node may lie. -/
noncomputable def Ways.pairsAround (ways : Ways) (nodeCount v : Nat) : Finset (Nat × Nat) :=
  (Finset.range nodeCount ×ˢ Finset.range nodeCount).filter fun pair =>
    pair.1 ≠ pair.2 ∧ pair.1 ≠ v ∧ pair.2 ≠ v ∧ ways.Reaches pair.1 pair.2

/-- The sum, over all pairs of distinct other nodes of which the second can be reached from the first, of
the share of shortest paths between them that lead through a node. -/
noncomputable def Ways.betweenness (ways : Ways) (nodeCount v : Nat) : ℚ :=
  ∑ pair ∈ ways.pairsAround nodeCount v,
    ((ways.shortestThrough pair.1 pair.2 v).ncard : ℚ) / (ways.shortest pair.1 pair.2).ncard

open Classical in
/-- The part of it that is due to one source. -/
noncomputable def Ways.shareOf (ways : Ways) (nodeCount source v : Nat) : ℚ :=
  ∑ t ∈ (Finset.range nodeCount).filter fun t => source ≠ t ∧ source ≠ v ∧ t ≠ v ∧ ways.Reaches source t,
    ((ways.shortestThrough source t v).ncard : ℚ) / (ways.shortest source t).ncard

theorem Ways.sum_shareOf (ways : Ways) (nodeCount v : Nat) :
    ∑ s ∈ Finset.range nodeCount, ways.shareOf nodeCount s v = ways.betweenness nodeCount v := by
  classical
  rw [betweenness, pairsAround, Finset.sum_filter, Finset.sum_product]
  refine Finset.sum_congr rfl fun s _ => ?_
  rw [shareOf, Finset.sum_filter]

namespace Search

/-- The search by hops or by weight. -/
def searchBy {κ ρ : Type} [PathCost κ] [Reckoning ρ] (measure : Measure κ) (source : Nat) (s : Search κ ρ) :
    Search κ ρ :=
  match measure with
  | .hops targets => s.breadthFirst targets source
  | .weights relationships count => s.cheapestFirst relationships count source

theorem visit_eq {κ ρ : Type} [PathCost κ] [Reckoning ρ] (measure : Measure κ) (source : Nat) (s : Search κ ρ)
    (scores : Array ρ) : visit measure source s scores = (searchBy measure source s).accumulate source scores := rfl

variable {κ : Type} [PathCost κ] {s : Search κ ℚ} {source nodeCount : Nat} {withCosts : Bool} {ways : Ways}
  {d : Nat → ℚ}

/-- What a complete search adds to the score of a node is the share of its source. -/
theorem Complete.shareOf_eq (h : s.Complete nodeCount withCosts ways source d) (v : Nat) :
    (if v ∈ s.settled ∧ v ≠ source then dependencyOn ways d source s.settled.toFinset v else 0) =
      ways.shareOf nodeCount source v := by
  classical
  by_cases hsource : v = source
  · have hnone : ∀ t, ¬ (source ≠ t ∧ source ≠ v ∧ t ≠ v ∧ ways.Reaches source t) :=
      fun t hall => hall.2.1 hsource.symm
    rw [if_neg fun hand => hand.2 hsource, Ways.shareOf, Finset.sum_filter]
    exact (Finset.sum_eq_zero fun t _ => if_neg (hnone t)).symm
  · have htargets : ((Finset.range nodeCount).filter fun t =>
        source ≠ t ∧ source ≠ v ∧ t ≠ v ∧ ways.Reaches source t) =
        s.settled.toFinset.filter fun t => t ≠ source ∧ t ≠ v := by
      ext t
      rw [Finset.mem_filter, Finset.mem_filter, Finset.mem_range, h.found.distances.reaches_iff]
      constructor
      · rintro ⟨-, hne, -, hv, hmem⟩
        exact ⟨hmem, hne.symm, hv⟩
      · rintro ⟨hmem, hne, hv⟩
        exact ⟨h.settled_lt t (List.mem_toFinset.mp hmem), hne.symm, Ne.symm hsource, hv, hmem⟩
    have hsum := h.found.distances.sum_shortestThrough hsource
    rw [Ways.shareOf, htargets, hsum]
    simp only [List.mem_toFinset, hsource, ne_eq, not_false_eq_true, and_true]

theorem Complete.limit (h : s.Complete nodeCount withCosts ways source d)
    (hlimit : ∀ t < nodeCount, (ways.shortest source t).ncard ≤ pathLimit) :
    ∀ v ∈ s.settled, (tight ways d source v).ncard ≤ pathLimit := by
  intro v hv
  rw [← h.found.distances.shortest_eq (List.mem_toFinset.mpr hv)]
  exact hlimit v (h.settled_lt v hv)

end Search

namespace Betweenness

variable {g : Graph} {byWeight : Bool} {source : Nat}

theorem sum_map_range {M : Type} [AddCommMonoid M] (f : Nat → M) (count : Nat) :
    ((List.range count).map f).sum = ∑ i ∈ Finset.range count, f i :=
  (Multiset.sum_coe _).symm

/-- There are as many relationships with weights as there are relationships. -/
theorem sum_length_weighted (hg : g.Built) (fallback : Float) :
    ∑ u ∈ Finset.range g.nodeCount, (g.weighted u fallback).length = g.relationshipCount := by
  have hlength : ∀ u, (g.weighted u fallback).length = (g.targets u).length := fun u => by
    rw [← (hg.perm_weighted u fallback).length_eq, List.length_map]
  rw [hg.relationshipCount_eq, Graph.nodeList, sum_map_range]
  exact Finset.sum_congr rfl fun u _ => hlength u

/-- Relationships with weights lead to nodes. -/
theorem lt_of_mem_weighted (hg : g.Built) (u : Nat) : ∀ a ∈ g.weighted u 1, a.1 < g.nodeCount := by
  intro a ha
  refine hg.target_lt ((hg.perm_weighted u 1).mem_iff.mp ?_)
  exact List.mem_map_of_mem ha

/-- **One source.**  A search with new buffers finds everything. -/
theorem exists_complete (hg : g.Built) (hweights : byWeight = true → AddsUp doubles (g.weighted · 1) source)
    (hsource : source < g.nodeCount) :
    ∃ d, (Search.searchBy (measureOf g byWeight) source
      (Search.new g.nodeCount (measureOf g byWeight).hasCosts : Search Float ℚ)).Complete
        g.nodeCount (measureOf g byWeight).hasCosts (g.ways byWeight) source d := by
  cases byWeight with
  | false =>
    exact ⟨_, Search.complete_breadthFirst (fun u target htarget => hg.target_lt htarget) hsource false⟩
  | true =>
    exact ⟨_, Search.complete_cheapestFirst (hweights rfl) (lt_of_mem_weighted hg) hsource
      (sum_length_weighted hg 1).le⟩

/-- There are finitely many shortest paths. -/
theorem finite_shortest (hg : g.Built) (hweights : byWeight = true → AddsUp doubles (g.weighted · 1) source)
    (hsource : source < g.nodeCount) (t : Nat) : ((g.ways byWeight).shortest source t).Finite := by
  obtain ⟨d, hcomplete⟩ := exists_complete hg hweights hsource
  exact hcomplete.found.distances.finite_shortest t

/-- The walk back adds the share of the source to the scores, and leaves new buffers behind. -/
theorem visit_new (hg : g.Built) (hweights : byWeight = true → AddsUp doubles (g.weighted · 1) source)
    (hsource : source < g.nodeCount)
    (hlimit : ∀ t < g.nodeCount, ((g.ways byWeight).shortest source t).ncard ≤ pathLimit) (scores : Array ℚ) :
    Search.visit (measureOf g byWeight) source (Search.new g.nodeCount (measureOf g byWeight).hasCosts) scores =
      (Search.new g.nodeCount (measureOf g byWeight).hasCosts,
        addEach ((g.ways byWeight).shareOf g.nodeCount source) scores) := by
  obtain ⟨d, hcomplete⟩ := exists_complete hg hweights hsource
  rw [Search.visit_eq, hcomplete.accumulate_eq (hcomplete.limit hlimit), funext hcomplete.shareOf_eq]

theorem foldl_addEach (amount : Nat → Nat → ℚ) (sources : List Nat) (scores : Array ℚ) :
    sources.foldl (fun scores s => addEach (amount s) scores) scores =
      addEach (fun v => (sources.map fun s => amount s v).sum) scores := by
  induction sources generalizing scores with
  | nil => exact (addEach_zero scores).symm
  | cons s sources ih =>
    rw [List.foldl_cons, ih, addEach_addEach]
    simp only [List.map_cons, List.sum_cons]

/-- **All sources.**  However they are handed out, the shares of all sources are added up. -/
theorem scoresOfTrace_eq (hg : g.Built)
    (hweights : byWeight = true → ∀ source < g.nodeCount, AddsUp doubles (g.weighted · 1) source)
    (hlimit : ∀ s < g.nodeCount, ∀ t < g.nodeCount, ((g.ways byWeight).shortest s t).ncard ≤ pathLimit)
    {workers : Nat} {trace : List Visit} (htrace : HandsOut g.nodeCount workers trace) :
    Search.scoresOfTrace (measureOf g byWeight) g.nodeCount workers trace =
      (Array.range g.nodeCount).map ((g.ways byWeight).betweenness g.nodeCount) := by
  have hnodes : ∀ v ∈ trace, v.node < g.nodeCount := fun v hv =>
    List.mem_range.mp (htrace.nodes.mem_iff.mp (List.mem_map_of_mem hv))
  have hturn : ∀ v ∈ trace, ∀ (s : Search Float ℚ) scores,
      s = Search.new g.nodeCount (measureOf g byWeight).hasCosts →
      (Search.visit (measureOf g byWeight) v.node s scores).1 =
          Search.new g.nodeCount (measureOf g byWeight).hasCosts ∧
        (Search.visit (measureOf g byWeight) v.node s scores).2 =
          addEach ((g.ways byWeight).shareOf g.nodeCount v.node) scores ∧ 0 = 0 + 0 := by
    rintro v hv s scores rfl
    have hvisit := visit_new hg (fun h => hweights h v.node (hnodes v hv)) (hnodes v hv)
      (hlimit v.node (hnodes v hv)) scores
    rw [hvisit]
    exact ⟨rfl, rfl, rfl⟩
  obtain ⟨hscores, -⟩ := @foldl_onWorker (Search Float ℚ) (Array ℚ) (Search.visit (measureOf g byWeight))
    (fun s => s = Search.new g.nodeCount (measureOf g byWeight).hasCosts)
    (fun source scores => addEach ((g.ways byWeight).shareOf g.nodeCount source) scores) (fun _ => 0) (fun _ => 0)
    trace hturn (List.replicate workers (Search.new g.nodeCount (measureOf g byWeight).hasCosts))
    (fun s hs => List.eq_of_mem_replicate hs)
    (fun v hv => by rw [List.length_replicate]; exact htrace.worker_lt v hv)
    (Array.replicate g.nodeCount (Reckoning.ofCount 0))
  rw [Search.scoresOfTrace]
  refine hscores.trans ?_
  rw [foldl_addEach]
  refine Array.ext (by simp [addEach]) fun v _ _ => ?_
  have hperm := (htrace.nodes.map fun s => (g.ways byWeight).shareOf g.nodeCount s v).sum_eq
  rw [sum_map_range, Ways.sum_shareOf] at hperm
  simp only [addEach, Array.getElem_mapIdx, Array.getElem_replicate, Array.getElem_map, Array.getElem_range]
  rw [hperm]
  exact (congrArg (· + _) Nat.cast_zero).trans (zero_add _)

/-! ## The run -/

/-- A weight that stands for a positive number is usable. -/
theorem isUsableWeight_of_value_pos {weight : Float} (h : 0 < value weight) : isUsableWeight weight = true := by
  have hfinite := isFinite_of_value_ne_zero h.ne'
  have hpositive : 0 < weight := by
    rw [lt_iff_value packed_zero.1.isFinite hfinite, packed_zero.2]
    exact h
  rw [isUsableWeight, hfinite, decide_eq_true hpositive]
  rfl

/-- Weights that add up pass the check. -/
theorem checkWeights_eq (hweighted : g.isWeighted = true)
    (hweights : ∀ source < g.nodeCount, AddsUp doubles (g.weighted · 1) source) : checkWeights g = .ok () := by
  have hnone : (g.nodeList.find? fun node => !(g.weighted node 1).all fun r => isUsableWeight r.2) = none := by
    refine List.find?_eq_none.mpr fun node hnode => ?_
    rw [Bool.not_eq_true', Bool.not_eq_false, List.all_eq_true]
    intro r hr
    exact isUsableWeight_of_value_pos ((hweights node (List.mem_range.mp hnode)).positive node r.1 r.2 hr)
  rw [checkWeights, hweighted, hnone]
  rfl

/-- **The run** that nobody stops hands out all nodes, and reckons with doubles. -/
theorem compute_eq {s : BetweennessSettings} (hvalid : s.validate = .ok ())
    (hweights : s.weighted = true → checkWeights g = .ok ())
    (hlimit : g.nodeCount + (s.concurrency + 1) * max s.batchSize 1 ≤ counterLimit) :
    ∃ trace, HandsOut g.nodeCount s.concurrency trace ∧
      compute g s none = .ok {
        scores := .ofArray ((Search.halve g.isUndirected (Search.scoresOfTrace (measureOf g s.weighted) g.nodeCount
          s.concurrency trace : Array Float)).map Binary64.ofFloat)
        terminated := false } := by
  obtain ⟨⟨⟩, hconcurrency, -⟩ := ok_of_bind hvalid
  have hpositive := one_le_of_checkConcurrency hconcurrency
  have hpool : Pool.new? s.concurrency = .ok ⟨s.concurrency, hpositive⟩ := dif_pos hpositive
  obtain ⟨htrace, hstopped⟩ := Crew.handsOut_trace_batches ⟨s.concurrency, hpositive⟩ g.nodeCount s.batchSize
    (.new "Betweenness" g.nodeCount 10) hlimit
  refine ⟨_, htrace, ?_⟩
  rw [compute, hvalid, hpool]
  cases hweighted : s.weighted with
  | false => exact congrArg (fun stopped => (.ok ⟨_, stopped⟩ : Except Fault Betweenness)) hstopped
  | true =>
    change (checkWeights g >>= _) = _
    rw [hweights hweighted]
    exact congrArg (fun stopped => (.ok ⟨_, stopped⟩ : Except Fault Betweenness)) hstopped

end Betweenness

/-! ## A detour -/

/-- Calls for a relationship, and a detour as long as that whose second half there is twice. -/
def detourCalls : List Call :=
  [.add 0 1 (some 1), .add 1 2 (some 1), .add 0 2 (some 2), .add 1 2 (some 1)]

section

variable {ways : Ways} {a b c : ℚ}

theorem Leads.of_nil {u t : Nat} {path : List Nat} {x : ℚ} (h : Leads ways u path t x) (hnil : ways u = []) :
    path = [] ∧ t = u ∧ x = 0 := by
  cases h with
  | stay u => exact ⟨rfl, rfl, rfl⟩
  | step hplace _ =>
    rw [hnil] at hplace
    exact absurd hplace (by simp)

/-- The lengths of a relationship and of the halves of a detour. -/
structure Detour (ways : Ways) (a b c : ℚ) : Prop where
  /-- From the first node there are the relationship and the first half. -/
  first : ways 0 = [(1, a), (2, b)]
  /-- The second half is there twice. -/
  second : ways 1 = [(2, c), (2, c)]
  /-- There is nothing else. -/
  others : ∀ u, 2 ≤ u → ways u = []

namespace Detour

theorem leads_second (h : Detour ways a b c) {path : List Nat} {t : Nat} {x : ℚ} (hpath : Leads ways 1 path t x) :
    path = [] ∧ t = 1 ∧ x = 0 ∨ (path = [0] ∨ path = [1]) ∧ t = 2 ∧ x = c := by
  cases hpath with
  | stay u => exact .inl ⟨rfl, rfl, rfl⟩
  | @step _ place v w rest _ _ hplace hrest =>
    rw [h.second] at hplace
    have hplaces : (place = 0 ∨ place = 1) ∧ v = 2 ∧ w = c := by
      match place, hplace with
      | 0, hplace => exact ⟨.inl rfl, by simpa [eq_comm] using hplace⟩
      | 1, hplace => exact ⟨.inr rfl, by simpa [eq_comm] using hplace⟩
      | place + 2, hplace => exact absurd hplace (by simp)
    obtain ⟨hwhere, rfl, rfl⟩ := hplaces
    obtain ⟨rfl, rfl, rfl⟩ := hrest.of_nil (h.others 2 (le_refl 2))
    refine .inr ⟨?_, rfl, add_zero _⟩
    clear hplace
    rcases hwhere with rfl | rfl
    · exact .inl rfl
    · exact .inr rfl

theorem leads_first (h : Detour ways a b c) {path : List Nat} {t : Nat} {x : ℚ} (hpath : Leads ways 0 path t x) :
    path = [] ∧ t = 0 ∧ x = 0 ∨ path = [0] ∧ t = 1 ∧ x = a ∨ path = [1] ∧ t = 2 ∧ x = b ∨
      (path = [0, 0] ∨ path = [0, 1]) ∧ t = 2 ∧ x = a + c := by
  cases hpath with
  | stay u => exact .inl ⟨rfl, rfl, rfl⟩
  | @step _ place v w rest _ _ hplace hrest =>
    rw [h.first] at hplace
    match place, hplace with
    | 0, hplace =>
      obtain ⟨rfl, rfl⟩ : v = 1 ∧ w = a := by simpa [eq_comm] using hplace
      rcases h.leads_second hrest with ⟨rfl, rfl, rfl⟩ | ⟨hlast, rfl, rfl⟩
      · exact .inr (.inl ⟨rfl, rfl, add_zero _⟩)
      · refine .inr (.inr (.inr ⟨?_, rfl, rfl⟩))
        rcases hlast with rfl | rfl
        · exact .inl rfl
        · exact .inr rfl
    | 1, hplace =>
      obtain ⟨rfl, rfl⟩ : v = 2 ∧ w = b := by simpa [eq_comm] using hplace
      obtain ⟨rfl, rfl, rfl⟩ := hrest.of_nil (h.others 2 (le_refl 2))
      exact .inr (.inr (.inl ⟨rfl, rfl, add_zero _⟩))
    | place + 2, hplace => exact absurd hplace (by simp)

/-- There are no more than five paths from any node. -/
theorem mem_paths (h : Detour ways a b c) {s t : Nat} {path : List Nat} {x : ℚ} (hpath : Leads ways s path t x) :
    path ∈ ({[], [0], [1], [0, 0], [0, 1]} : Finset (List Nat)) := by
  match s, hpath with
  | 0, hpath => rcases h.leads_first hpath with ⟨rfl, -⟩ | ⟨rfl, -⟩ | ⟨rfl, -⟩ | ⟨rfl | rfl, -⟩ <;> decide
  | 1, hpath => rcases h.leads_second hpath with ⟨rfl, -⟩ | ⟨rfl | rfl, -⟩ <;> decide
  | s + 2, hpath =>
    obtain ⟨rfl, -⟩ := hpath.of_nil (h.others (s + 2) (Nat.le_add_left 2 s))
    decide

theorem ncard_shortest_le (h : Detour ways a b c) (s t : Nat) : (ways.shortest s t).ncard ≤ pathLimit := by
  have hsub : ways.shortest s t ⊆ (({[], [0], [1], [0, 0], [0, 1]} : Finset (List Nat)) : Set (List Nat)) :=
    fun path ⟨x, hpath, _⟩ => h.mem_paths hpath
  refine (Set.ncard_le_ncard hsub (Finset.finite_toSet _)).trans ?_
  rw [Set.ncard_coe_finset]
  decide

theorem leads_direct (h : Detour ways a b c) : Leads ways 0 [1] 2 b := by
  have hpath : Leads ways 0 [1] 2 (b + 0) := .step (by rw [h.first]; rfl) (.stay 2)
  rwa [add_zero] at hpath

theorem leads_around (h : Detour ways a b c) {place : Nat} (hplace : place < 2) :
    Leads ways 0 [0] 1 a ∧ Leads ways 0 [0, place] 2 (a + c) := by
  have hfirst : Leads ways 0 [0] 1 (a + 0) := .step (by rw [h.first]; rfl) (.stay 1)
  have hsecond : Leads ways 1 [place] 2 (c + 0) := by
    refine .step ?_ (.stay 2)
    rw [h.second]
    match place, hplace with
    | 0, _ => rfl
    | 1, _ => rfl
  rw [add_zero] at hfirst hsecond
  exact ⟨hfirst, hfirst.append hsecond⟩

/-- The middle node lies between the ends only. -/
theorem betweenness_middle (h : Detour ways a b c) : ways.betweenness 3 1 =
    ((ways.shortestThrough 0 2 1).ncard : ℚ) / (ways.shortest 0 2).ncard := by
  classical
  have hpairs : ways.pairsAround 3 1 = {(0, 2)} := by
    ext ⟨s, t⟩
    rw [Ways.pairsAround, Finset.mem_filter, Finset.mem_product, Finset.mem_range, Finset.mem_range,
      Finset.mem_singleton, Prod.mk.injEq]
    constructor
    · rintro ⟨⟨hs, ht⟩, hne, hs1, ht1, path, x, hpath⟩
      simp only at hs ht hne hs1 ht1 hpath
      by_cases hsource : s = 2
      · rw [hsource] at hpath
        have := (hpath.of_nil (h.others 2 (le_refl 2))).2.1
        omega
      · omega
    · rintro ⟨rfl, rfl⟩
      exact ⟨by decide, by decide, by decide, by decide, [1], b, h.leads_direct⟩
  rw [Ways.betweenness, hpairs, Finset.sum_singleton]

/-- Where the detour is longer, no shortest path takes it. -/
theorem shortestThrough_of_lt (h : Detour ways a b c) (hlt : b < a + c) : ways.shortestThrough 0 2 1 = ∅ := by
  refine Set.eq_empty_iff_forall_notMem.mpr ?_
  rintro path ⟨⟨x, hpath, hleast⟩, front, back, y, rfl, hfront⟩
  have hx := hleast _ _ h.leads_direct
  rcases h.leads_first hpath with ⟨-, htwo, -⟩ | ⟨-, htwo, -⟩ | ⟨heq, -, -⟩ | ⟨-, -, rfl⟩
  · exact absurd htwo (by decide)
  · exact absurd htwo (by decide)
  · -- the relationship itself does not lead to the middle
    rcases h.leads_first hfront with ⟨-, hone, -⟩ | ⟨rfl, -⟩ | ⟨-, hone, -⟩ | ⟨-, hone, -⟩
    · exact absurd hone (by decide)
    · exact absurd (List.cons.inj heq).1 (by decide)
    · exact absurd hone (by decide)
    · exact absurd hone (by decide)
  · exact absurd hx (not_le.mpr hlt)

/-- Where the detour is as long, all paths are shortest ones. -/
theorem shortest_of_eq (h : Detour ways a b c) (heq : b = a + c) :
    ways.shortest 0 2 = (({[1], [0, 0], [0, 1]} : Finset (List Nat)) : Set (List Nat)) ∧
      ways.shortestThrough 0 2 1 = (({[0, 0], [0, 1]} : Finset (List Nat)) : Set (List Nat)) := by
  have hlength : ∀ {path x}, Leads ways 0 path 2 x → x = b := by
    intro path x hpath
    rcases h.leads_first hpath with ⟨-, htwo, -⟩ | ⟨-, htwo, -⟩ | ⟨-, -, rfl⟩ | ⟨-, -, rfl⟩
    · exact absurd htwo (by decide)
    · exact absurd htwo (by decide)
    · rfl
    · exact heq.symm
  have hshortest : ∀ {path x}, Leads ways 0 path 2 x → path ∈ ways.shortest 0 2 := fun hpath =>
    ⟨_, hpath, fun other y hother => by rw [hlength hpath, hlength hother]⟩
  have hsome : ∀ {path x}, Leads ways 0 path 2 x → path = [1] ∨ path = [0, 0] ∨ path = [0, 1] := by
    intro path x hpath
    rcases h.leads_first hpath with ⟨-, htwo, -⟩ | ⟨-, htwo, -⟩ | ⟨hone, -⟩ | ⟨hone, -⟩
    · exact absurd htwo (by decide)
    · exact absurd htwo (by decide)
    · exact .inl hone
    · exact .inr hone
  constructor
  · ext path
    simp only [Finset.coe_insert, Finset.coe_singleton, Set.mem_insert_iff, Set.mem_singleton_iff]
    constructor
    · rintro ⟨x, hpath, -⟩
      exact hsome hpath
    · rintro (rfl | rfl | rfl)
      · exact hshortest h.leads_direct
      · exact hshortest (h.leads_around Nat.two_pos).2
      · exact hshortest (h.leads_around Nat.one_lt_two).2
  · ext path
    simp only [Finset.coe_insert, Finset.coe_singleton, Set.mem_insert_iff, Set.mem_singleton_iff]
    constructor
    · rintro ⟨⟨x, hpath, -⟩, front, back, y, rfl, hfront⟩
      rcases hsome hpath with hone | hround
      · rcases h.leads_first hfront with ⟨-, hmiddle, -⟩ | ⟨rfl, -⟩ | ⟨-, hmiddle, -⟩ | ⟨-, hmiddle, -⟩
        · exact absurd hmiddle (by decide)
        · exact absurd (List.cons.inj hone).1 (by decide)
        · exact absurd hmiddle (by decide)
        · exact absurd hmiddle (by decide)
      · exact hround
    · rintro (rfl | rfl)
      · exact ⟨hshortest (h.leads_around Nat.two_pos).2, [0], [0], a, rfl, (h.leads_around Nat.two_pos).1⟩
      · exact ⟨hshortest (h.leads_around Nat.one_lt_two).2, [0], [1], a, rfl, (h.leads_around Nat.one_lt_two).1⟩

end Detour

end

/-- The rows of that graph. -/
def detourRows : Nat → List (Nat × Float)
  | 0 => [(1, 1), (2, 2)]
  | 1 => [(2, 1), (2, 1)]
  | _ => []

theorem value_two : (2 : Float).isFinite = true ∧ value 2 = 2 := by
  rw [show (2 : Float) = natToFloat 2 by decide]
  exact value_of_whole (by decide) (by decide)

theorem addsUp_detourRows (source : Nat) : AddsUp doubles detourRows source := by
  have hrows : ∀ u v w, (v, w) ∈ detourRows u →
      u = 0 ∧ v = 1 ∧ w = 1 ∨ u = 0 ∧ v = 2 ∧ w = 2 ∨ u = 1 ∧ v = 2 ∧ w = 1 := by
    intro u v w hmem
    match u, hmem with
    | 0, hmem => simpa [detourRows] using hmem
    | 1, hmem => simpa [detourRows] using hmem
  have hsums : (0 : Float) + 1 = 1 ∧ (0 : Float) + 2 = 2 ∧ (1 : Float) + 1 = 2 := by decide +kernel
  constructor
  case positive =>
    intro u v w hmem
    change 0 < value w
    rcases hrows u v w hmem with ⟨-, -, rfl⟩ | ⟨-, -, rfl⟩ | ⟨-, -, rfl⟩
    · rw [value_one.2]
      exact one_pos
    · rw [value_two.2]
      exact two_pos
    · rw [value_one.2]
      exact one_pos
  case add =>
    intro u v w nodes c hcosts hmem hv
    change (c + w).isFinite = true ∧ value (c + w) = value c + value w
    have hcost : c = 0 ∨ u = 1 ∧ c = 1 := by
      cases hcosts with
      | start => exact .inl rfl
      | @step u' _ _ c' w' hbefore hfirst _ =>
        rcases hrows u' u w' hfirst with ⟨rfl, rfl, rfl⟩ | ⟨rfl, rfl, rfl⟩ | ⟨rfl, rfl, rfl⟩
        · cases hbefore with
          | start => exact .inr ⟨rfl, hsums.1⟩
          | step _ hnone _ => rcases hrows _ _ _ hnone with h | h | h <;> simp at h
        · exact absurd hmem List.not_mem_nil
        · exact absurd hmem List.not_mem_nil
    rcases hcost with rfl | ⟨rfl, rfl⟩
    · rw [packed_zero.2, zero_add]
      rcases hrows u v w hmem with ⟨-, -, rfl⟩ | ⟨-, -, rfl⟩ | ⟨-, -, rfl⟩
      · rw [hsums.1]
        exact ⟨value_one.1, rfl⟩
      · rw [hsums.2.1]
        exact ⟨value_two.1, rfl⟩
      · rw [hsums.1]
        exact ⟨value_one.1, rfl⟩
    · rcases hrows 1 v w hmem with ⟨h, -⟩ | ⟨h, -⟩ | ⟨-, -, rfl⟩
      · exact absurd h (by decide)
      · exact absurd h (by decide)
      · rw [hsums.2.2, value_two.2, value_one.2]
        exact ⟨value_two.1, by norm_num⟩

/-- A graph with the given rows, from calls that bring them. -/
theorem exists_graph_of_rows {nodeCount : Nat} (hbound : (IdMap.identity nodeCount).Valid) {calls : List Call}
    (hcalls : ∀ call ∈ calls, call.NamesBatch 0) {rows : Nat → List (Nat × Float)}
    (hrows : ∀ u < nodeCount, ownOf u (arrivals (.identity nodeCount) { weighted := true, concurrency := 2 } 0 calls) =
      rows u)
    (hsorted : ∀ u, ((rows u).map Prod.fst).Pairwise (· ≤ ·)) (hbeyond : ∀ u, nodeCount ≤ u → rows u = []) :
    ∃ g : Graph, g.Built ∧ g.nodeCount = nodeCount ∧ g.isUndirected = false ∧ g.isWeighted = true ∧
      ∀ u, g.weighted u 1 = rows u := by
  obtain ⟨g, hg, hcount, hundirected, hweights, hmakes⟩ := @Graph.exists_weighted_built (.identity nodeCount)
    { weighted := true, concurrency := 2 } 0 calls hbound (by decide) (by decide) (by decide) hcalls
  refine ⟨g, hg, hcount, hundirected, hweights, fun u => ?_⟩
  rcases Nat.lt_or_ge u nodeCount with hu | hu
  · have hrow := hsorted u
    rw [← hrows u hu] at hrow ⊢
    exact (hmakes u hu 1).eq_ownOf hrow
  · have hperm := hg.perm_weighted u 1
    rw [hg.targets_eq_nil (hcount.le.trans hu)] at hperm
    rw [List.map_eq_nil_iff.mp hperm.eq_nil, hbeyond u hu]

/-- Rows tell the targets. -/
theorem targets_eq_of_rows {g : Graph} (hg : g.Built) {rows : Nat → List (Nat × Float)}
    (hweighted : ∀ u, g.weighted u 1 = rows u) (hsorted : ∀ u, ((rows u).map Prod.fst).Pairwise (· ≤ ·)) :
    g.targets = fun u => (rows u).map Prod.fst := by
  funext u
  have hperm := hg.perm_weighted u 1
  rw [hweighted] at hperm
  exact (hperm.eq_of_pairwise (fun a b _ _ => Nat.le_antisymm) (hsorted u) (hg.ascending u)).symm

theorem sorted_detourRows (u : Nat) : ((detourRows u).map Prod.fst).Pairwise (· ≤ ·) := by
  match u with
  | 0 => decide
  | 1 => decide
  | u + 2 => exact List.Pairwise.nil

/-- A graph with those rows. -/
theorem exists_detour : ∃ g : Graph, g.Built ∧ g.nodeCount = 3 ∧ g.isUndirected = false ∧
    g.isWeighted = true ∧ ∀ u, g.weighted u 1 = detourRows u := by
  refine exists_graph_of_rows (IdMap.valid_identity (by decide)) (by decide : ∀ call ∈ detourCalls, call.NamesBatch 0)
    (by decide +kernel) sorted_detourRows fun u hu => ?_
  match u, hu with
  | u + 2, _ => rfl

section

variable {g : Graph}

theorem detour_by_hops (hg : g.Built) (hweighted : ∀ u, g.weighted u 1 = detourRows u) :
    Detour (g.ways false) 1 1 1 := by
  have hways : g.ways false = hopWays fun u => (detourRows u).map Prod.fst :=
    congrArg hopWays (targets_eq_of_rows hg hweighted sorted_detourRows)
  rw [hways]
  refine ⟨rfl, rfl, fun u hu => ?_⟩
  match u, hu with
  | u + 2, _ => rfl

theorem detour_by_weight (hweighted : ∀ u, g.weighted u 1 = detourRows u) : Detour (g.ways true) 1 2 1 := by
  have hways : g.ways true = costWays doubles detourRows := congrArg (costWays doubles) (funext hweighted)
  rw [hways]
  constructor
  · change [(1, value 1), (2, value 2)] = _
    rw [value_one.2, value_two.2]
  · change [(2, value 1), (2, value 1)] = _
    rw [value_one.2]
  · intro u hu
    match u, hu with
    | u + 2, _ => rfl

end

/-! ## The scores -/

/-- **Betweenness is Brandes' sum.**  Reckoned exactly, the scores of a graph are, however its nodes are
handed out as sources: for every node the sum, over all ordered pairs of distinct other nodes of which the
second can be reached from the first, of the share of shortest paths that lead through the node; half of
that where the graph is undirected.  Paths are measured by hops or, where weights are positive and add up
exactly, by weight; there are finitely many shortest ones, and no two nodes may have more of them than can
be counted.  The run that nobody stops hands out the nodes in one such way. -/
theorem betweenness_of_built {g : Graph} (hg : g.Built) (byWeight : Bool)
    (hweights : byWeight = true → ∀ source < g.nodeCount, AddsUp doubles (g.weighted · 1) source)
    (hlimit : ∀ s < g.nodeCount, ∀ t < g.nodeCount, ((g.ways byWeight).shortest s t).ncard ≤ pathLimit) :
    (∀ s < g.nodeCount, ∀ t, ((g.ways byWeight).shortest s t).Finite) ∧
    (∀ (workers : Nat) (trace : List Visit), HandsOut g.nodeCount workers trace →
      Search.halve g.isUndirected
          (Search.scoresOfTrace (Betweenness.measureOf g byWeight) g.nodeCount workers trace : Array ℚ) =
        (Array.range g.nodeCount).map fun v =>
          (g.ways byWeight).betweenness g.nodeCount v / if g.isUndirected then 2 else 1) ∧
    (∀ settings : BetweennessSettings, settings.validate = .ok () → settings.weighted = byWeight →
      (byWeight = true → g.isWeighted = true) →
      g.nodeCount + (settings.concurrency + 1) * max settings.batchSize 1 ≤ counterLimit →
      ∃ trace, HandsOut g.nodeCount settings.concurrency trace ∧
        Betweenness.compute g settings none = .ok {
          scores := .ofArray ((Search.halve g.isUndirected (Search.scoresOfTrace
            (Betweenness.measureOf g byWeight) g.nodeCount settings.concurrency trace : Array Float)).map
              Binary64.ofFloat)
          terminated := false }) := by
  refine ⟨?_, ?_, ?_⟩
  · intro s hs t
    exact Betweenness.finite_shortest hg (fun h => hweights h s hs) hs t
  · intro workers trace htrace
    rw [Betweenness.scoresOfTrace_eq hg hweights hlimit htrace, Search.halve]
    split
    · rw [Array.map_map]
      rfl
    · simp only [div_one]
  · rintro settings hvalid rfl hweighted hcounter
    exact Betweenness.compute_eq hvalid (fun h => Betweenness.checkWeights_eq (hweighted h) (hweights h)) hcounter

/-- By hops the detour is longer, so nothing depends on its middle; by weight it is as long, and two of the
three shortest paths lead through the middle.  Two workers find that out. -/
theorem betweenness_of_detour :
    ∃ g : Graph, g.Built ∧ ∀ byWeight : Bool, ∃ trace, HandsOut g.nodeCount 2 trace ∧
      (Search.halve g.isUndirected (Search.scoresOfTrace (Betweenness.measureOf g byWeight) g.nodeCount 2
        trace : Array ℚ))[1]? = some (if byWeight then 2 / 3 else 0) ∧
      ∃ b, Betweenness.compute g { concurrency := 2, weighted := byWeight } none = .ok b ∧
        b.terminated = false := by
  obtain ⟨g, hg, hcount, hundirected, hstored, hweighted⟩ := exists_detour
  have hhops := detour_by_hops hg hweighted
  have hlengths := detour_by_weight hweighted
  have hexact : ∀ source < g.nodeCount, AddsUp doubles (g.weighted · 1) source := by
    intro source _
    rw [show (g.weighted · 1) = detourRows from funext hweighted]
    exact addsUp_detourRows source
  have hfew : ∀ byWeight s t, ((g.ways byWeight).shortest s t).ncard ≤ pathLimit
    | false, s, t => hhops.ncard_shortest_le s t
    | true, s, t => hlengths.ncard_shortest_le s t
  have hmiddle : ∀ byWeight : Bool, (g.ways byWeight).betweenness 3 1 = if byWeight then 2 / 3 else 0 := by
    rintro (- | -)
    · rw [hhops.betweenness_middle, hhops.shortestThrough_of_lt (by norm_num), Set.ncard_empty]
      norm_num
    · obtain ⟨hall, hthrough⟩ := hlengths.shortest_of_eq (by norm_num)
      rw [hlengths.betweenness_middle, hall, hthrough, Set.ncard_coe_finset, Set.ncard_coe_finset,
        show ({[1], [0, 0], [0, 1]} : Finset (List Nat)).card = 3 from rfl,
        show ({[0, 0], [0, 1]} : Finset (List Nat)).card = 2 from rfl]
      norm_num
  refine ⟨g, hg, fun byWeight => ?_⟩
  obtain ⟨-, hscores, hcompute⟩ := betweenness_of_built hg byWeight (fun _ => hexact)
    fun s _ t _ => hfew byWeight s t
  obtain ⟨trace, htrace, hrun⟩ := hcompute { concurrency := 2, weighted := byWeight }
    (by cases byWeight <;> decide) rfl (fun _ => hstored) (by rw [hcount]; simp [counterLimit])
  refine ⟨trace, htrace, ?_, _, hrun, rfl⟩
  have hread : ∀ f : Nat → ℚ, ((Array.range 3).map f)[1]? = some (f 1) := fun f => by simp
  rw [hscores 2 trace htrace, hundirected, hcount, hread, hmiddle, if_neg Bool.false_ne_true, div_one]

end PackedGraph
