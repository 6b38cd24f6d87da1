import PackedGraph.Proofs.Analysis.Components
import PackedGraph.Proofs.Analysis.Leftovers
import PackedGraph.Proofs.Analysis.Similarity
import PackedGraph.Proofs.Analysis.Triangles
import PackedGraph.Proofs.Workers.Interruption

/-!
# What a stopped run has found

A worker alone that is asked to stop has processed the first nodes, whichever analysis it works for, and no node by
halves.  So the result of a stopped run is what the processed nodes have contributed to the complete one: triangles
are counted by their smallest corners, components are those of the relationships of the processed nodes, the
finished sources and no others have added shares, and nodes have been compared only when the inverse index was
complete.  What a finished source adds are its own shares as long as the sources before it reach at finite cost
whatever they reach; else their leftovers are among them.

Main statement: `partial_results_honest`.
-/

namespace PackedGraph

/-! ## Lists by nodes -/

/-- What the first nodes contribute is what is filed under them in the contributions of all nodes. -/
theorem flatMap_range_eq_filter {β : Type} {f : Nat → List β} {key : β → Nat} (hkey : ∀ a, ∀ b ∈ f a, key b = a)
    {processed count : Nat} (h : processed ≤ count) :
    (List.range processed).flatMap f =
      ((List.range count).flatMap f).filter fun b => decide (key b < processed) := by
  obtain ⟨others, rfl⟩ := Nat.exists_eq_add_of_le h
  have hfront : ((List.range processed).flatMap f).filter (fun b => decide (key b < processed)) =
      (List.range processed).flatMap f := by
    refine List.filter_eq_self.mpr fun b hb => ?_
    obtain ⟨a, ha, hmem⟩ := List.mem_flatMap.mp hb
    rw [hkey a b hmem]
    exact decide_eq_true (List.mem_range.mp ha)
  have hback : (((List.range others).map (processed + ·)).flatMap f).filter
      (fun b => decide (key b < processed)) = [] := by
    refine List.filter_eq_nil_iff.mpr fun b hb => ?_
    obtain ⟨a, ha, hmem⟩ := List.mem_flatMap.mp hb
    obtain ⟨other, -, rfl⟩ := List.mem_map.mp ha
    rw [hkey _ b hmem, decide_eq_true_iff]
    omega
  rw [List.range_add, List.flatMap_append, List.filter_append, hfront, hback, List.append_nil]

/-! ## Triangles -/

/-- The triangles whose smallest corner is below a bound. -/
def Graph.triangleSetsBelow (g : Graph) (maxDegree bound : Nat) : Finset (Finset Nat) :=
  (g.triangleSets maxDegree).filter fun corners => ∃ a ∈ corners, a < bound ∧ ∀ b ∈ corners, a ≤ b

namespace TriangleCounts

variable {g : Graph} {maxDegree processed : Nat}

/-- The counts are those of the triangles whose smallest corners have been processed, and no larger than complete
ones. -/
structure CountsBelow (g : Graph) (maxDegree processed : Nat) (full t : TriangleCounts) : Prop where
  /-- Every such triangle is counted once, -/
  total_eq : t.total = (g.triangleSetsBelow maxDegree processed).card
  /-- and once for each of its corners. -/
  perNode_eq : t.perNode = ((List.range g.nodeCount).map fun node =>
    ((g.triangleSetsBelow maxDegree processed).filter (node ∈ ·)).card).toArray
  /-- In the complete run there are no fewer. -/
  total_le : t.total ≤ full.total
  /-- This holds for every node. -/
  perNode_le : ∀ node, t.perNode.getD node 0 ≤ full.perNode.getD node 0

theorem smallest_lt_iff {t : Triangle} (ht : t.a < t.b ∧ t.b < t.c) :
    (∃ a ∈ t.corners, a < processed ∧ ∀ b ∈ t.corners, a ≤ b) ↔ t.a < processed := by
  simp only [Triangle.corners, Finset.mem_insert, Finset.mem_singleton]
  constructor
  · rintro ⟨a, rfl | rfl | rfl, hlt, -⟩ <;> omega
  · intro hlt
    refine ⟨t.a, .inl rfl, hlt, ?_⟩
    rintro b (rfl | rfl | rfl) <;> omega

/-- Triangles that are found at the first nodes, counted by their corners. -/
theorem countP_below (hg : g.Built) (hundirected : g.isUndirected = true) (hparallel : g.parallel = false)
    (h : processed ≤ g.nodeCount) (p : Finset Nat → Prop) [DecidablePred p] :
    ((List.range processed).flatMap (g.trianglesFrom maxDegree)).countP (fun t => decide (p t.corners)) =
      ((g.triangleSetsBelow maxDegree processed).filter p).card := by
  have hkey : ∀ a, ∀ t ∈ g.trianglesFrom maxDegree a, t.a = a := fun a t ht => (Graph.mem_trianglesFrom.mp ht).1
  rw [flatMap_range_eq_filter hkey h, List.countP_filter, Graph.triangleSetsBelow, Finset.filter_filter,
    ← Graph.countP_allTriangles hg hundirected hparallel]
  refine List.countP_congr fun t ht => ?_
  have hascending := ((Graph.mem_allTriangles hg).mp ht).1
  rw [Bool.and_eq_true, decide_eq_true_iff, decide_eq_true_iff, decide_eq_true_iff, smallest_lt_iff hascending,
    and_comm]

theorem length_below (hg : g.Built) (hundirected : g.isUndirected = true) (hparallel : g.parallel = false)
    (h : processed ≤ g.nodeCount) :
    ((List.range processed).flatMap (g.trianglesFrom maxDegree)).length =
      (g.triangleSetsBelow maxDegree processed).card := by
  have hcount := @countP_below g maxDegree processed hg hundirected hparallel h (fun _ => True) _
  rw [Finset.filter_true_of_mem fun _ _ => trivial] at hcount
  simpa using hcount

theorem foldl_mark_below (hg : g.Built) (hundirected : g.isUndirected = true) (hparallel : g.parallel = false)
    (h : processed ≤ g.nodeCount) :
    ((List.range processed).flatMap (g.trianglesFrom maxDegree)).foldl mark (Array.replicate g.nodeCount 0) =
      ((List.range g.nodeCount).map fun node =>
        ((g.triangleSetsBelow maxDegree processed).filter (node ∈ ·)).card).toArray := by
  have hascending : ∀ t ∈ (List.range processed).flatMap (g.trianglesFrom maxDegree), t.a < t.b ∧ t.b < t.c := by
    intro t ht
    obtain ⟨a, -, hmem⟩ := List.mem_flatMap.mp ht
    exact (Graph.mem_trianglesFrom.mp hmem).2.1
  refine Array.ext_getElem? fun node => ?_
  rw [getElem?_foldl_mark hascending, countP_below hg hundirected hparallel h (node ∈ ·),
    Array.getElem?_replicate, List.getElem?_toArray, List.getElem?_map]
  by_cases hnode : node < g.nodeCount
  · rw [if_pos hnode, List.getElem?_range hnode, Option.map_some, Option.map_some, Nat.zero_add]
  · rw [if_neg hnode, List.getElem?_eq_none (by simpa using hnode)]
    rfl

/-- A worker alone counts the triangles whose smallest corners it has processed. -/
theorem exists_compute_alone (hg : g.Built) (hundirected : g.isUndirected = true) (hparallel : g.parallel = false)
    {settings : TriangleSettings} (hone : settings.concurrency = 1)
    (hlimit : g.nodeCount + batchSize < counterLimit) (stop : StopAfter) :
    ∃ t, compute g settings stop = .ok t ∧ t.terminated = stop.reached g.nodeCount ∧
      t.total = (g.triangleSetsBelow settings.maxDegree (stop.within g.nodeCount)).card ∧
      t.perNode = ((List.range g.nodeCount).map fun node =>
        ((g.triangleSetsBelow settings.maxDegree (stop.within g.nodeCount)).filter (node ∈ ·)).card).toArray := by
  have hfinder : g.triangleFinder? settings.maxDegree =
      .ok ⟨g, settings.maxDegree, g.rawCursor, g.rawCursor, g.rawCursor⟩ := by
    rw [Graph.triangleFinder?, hundirected, hparallel]
    rfl
  obtain ⟨-, -, hready⟩ := Graph.ready_of_triangleFinder hfinder
  have hvalid : settings.validate = .ok () := by
    rw [TriangleSettings.validate, checkConcurrency, if_neg (by omega)]
  have hpool : Pool.new? settings.concurrency = .ok ⟨settings.concurrency, hone.ge⟩ := dif_pos hone.ge
  have hwalked := @Crew.handOut_batches_alone ⟨settings.concurrency, hone.ge⟩ hone g.nodeCount batchSize hlimit stop
    (.new "TriangleCount" g.nodeCount 10)
  have hfound := ofTrace_eq hg hready fun v hv => (hwalked.worker_lt v hv).trans_eq hone.symm
  rw [hwalked.nodes_eq] at hfound
  rw [compute, hvalid, hfinder, hpool]
  refine ⟨_, rfl, hwalked.stopped_eq, (congrArg Prod.fst hfound).trans ?_, (congrArg Prod.snd hfound).trans ?_⟩
  · exact length_below hg hundirected hparallel (stop.within_le g.nodeCount)
  · exact foldl_mark_below hg hundirected hparallel (stop.within_le g.nodeCount)

/-- A stopped run has counted the triangles whose smallest corners were processed. -/
theorem exists_countsBelow (hg : g.Built) (hundirected : g.isUndirected = true) (hparallel : g.parallel = false)
    {settings : TriangleSettings} (hone : settings.concurrency = 1)
    (hlimit : g.nodeCount + batchSize < counterLimit) (hprocessed : processed ≤ g.nodeCount) :
    ∃ full t, compute g settings none = .ok full ∧ compute g settings (some processed) = .ok t ∧
      t.terminated = true ∧ CountsBelow g settings.maxDegree processed full t := by
  obtain ⟨full, hfull, -, hfullTotal, hfullNodes⟩ :=
    exists_compute_alone hg hundirected hparallel hone hlimit none
  obtain ⟨t, ht, hterminated, htotal, hnodes⟩ :=
    exists_compute_alone hg hundirected hparallel hone hlimit (some processed)
  rw [StopAfter.within_of_le hprocessed] at htotal hnodes
  rw [StopAfter.reached_of_le hprocessed] at hterminated
  have hsubset : g.triangleSetsBelow settings.maxDegree processed ⊆
      g.triangleSetsBelow settings.maxDegree g.nodeCount := by
    intro corners hcorners
    obtain ⟨hmem, a, ha, hlt, hleast⟩ := Finset.mem_filter.mp hcorners
    exact Finset.mem_filter.mpr ⟨hmem, a, ha, hlt.trans_le hprocessed, hleast⟩
  refine ⟨full, t, hfull, ht, hterminated, htotal, hnodes, ?_, fun node => ?_⟩
  · rw [htotal, hfullTotal]
    exact Finset.card_le_card hsubset
  · rw [hnodes, hfullNodes]
    by_cases hnode : node < g.nodeCount
    · simp only [Array.getD_eq_getD_getElem?, List.getElem?_toArray, List.getElem?_map, List.getElem?_range hnode,
        Option.map_some, Option.getD_some]
      exact Finset.card_le_card (Finset.filter_subset_filter _ hsubset)
    · simp [hnode]

end TriangleCounts

/-! ## Components -/

/-- Whether relationships of the first nodes lead from one node to another, their directions left aside. -/
def Graph.JoinedBelow (g : Graph) (processed : Nat) : Nat → Nat → Prop :=
  Relation.ReflTransGen fun a b => a < processed ∧ b ∈ g.targets a ∨ b < processed ∧ a ∈ g.targets b

theorem Graph.JoinedBelow.joined {g : Graph} {processed a b : Nat} (h : g.JoinedBelow processed a b) :
    g.Joined a b := by
  induction h with
  | refl => exact .refl
  | tail _ hlast ih => exact ih.tail (hlast.imp And.right And.right)

namespace Components

open DisjointSets

variable {g : Graph} {processed : Nat}

/-- The classes are those of the relationships of the processed nodes. -/
structure ClassesBelow (g : Graph) (processed : Nat) (c : Components) : Prop where
  /-- Every node has a representative. -/
  size_eq : c.representatives.size = g.nodeCount
  /-- Nodes are in one class exactly if relationships of processed nodes join them. -/
  same_iff : ∀ a b (ha : a < c.representatives.size) (hb : b < c.representatives.size),
    c.representatives[a] = c.representatives[b] ↔ g.JoinedBelow processed a b
  /-- So a class lies inside one component. -/
  inside : ∀ a b (ha : a < c.representatives.size) (hb : b < c.representatives.size),
    c.representatives[a] = c.representatives[b] → g.component a = g.component b
  /-- It is represented by its smallest member. -/
  least : ∀ a (ha : a < c.representatives.size),
    IsLeast {b | ∃ hb : b < c.representatives.size, c.representatives[b] = c.representatives[a]}
      c.representatives[a]

/-- The relationships of the first nodes, as pairs. -/
def pairsBelow (g : Graph) (processed : Nat) : List (Nat × Nat) :=
  (List.range processed).flatMap fun node => (g.targets node).map fun target => (node, target)

theorem mem_pairsBelow {a b : Nat} : (a, b) ∈ pairsBelow g processed ↔ a < processed ∧ b ∈ g.targets a := by
  simp [pairsBelow]

/-- What the relationships of the first nodes unite are the classes. -/
theorem classesBelow_roots (hg : g.Built) (processed : Nat) (terminated : Bool) :
    ClassesBelow g processed ⟨((new g.nodeCount).unionAll (pairsBelow g processed)).roots, terminated⟩ := by
  have hlt : ∀ pair ∈ pairsBelow g processed, pair.1 < g.nodeCount ∧ pair.2 < g.nodeCount := fun pair hpair =>
    have htarget := (mem_pairsBelow.mp hpair).2
    ⟨hg.source_lt htarget, hg.target_lt htarget⟩
  have hroots : ∀ a b, ((new g.nodeCount).unionAll (pairsBelow g processed)).root a =
      ((new g.nodeCount).unionAll (pairsBelow g processed)).root b ↔ g.JoinedBelow processed a b := fun a b => by
    rw [root_unionAll_new_iff hlt]
    simp only [Connected, mem_pairsBelow]
    rfl
  have hsize : ((new g.nodeCount).unionAll (pairsBelow g processed)).roots.size = g.nodeCount := by
    simp [roots_eq]
  have hentry : ∀ a (h : a < ((new g.nodeCount).unionAll (pairsBelow g processed)).roots.size),
      ((new g.nodeCount).unionAll (pairsBelow g processed)).roots[a] =
        ((new g.nodeCount).unionAll (pairsBelow g processed)).root a := by
    intro a h
    simp only [roots_eq, List.getElem_toArray, List.getElem_map, List.getElem_range]
  constructor
  case size_eq => exact hsize
  case same_iff =>
    intro a b ha hb
    rw [hentry a ha, hentry b hb]
    exact hroots a b
  case inside =>
    intro a b ha hb heq
    rw [hentry a ha, hentry b hb, hroots] at heq
    exact Graph.component_eq_iff.mpr heq.joined
  case least =>
    intro a ha
    simp only [hentry]
    refine ⟨⟨(root_le _ _).trans_lt ha, root_root _ _⟩, ?_⟩
    rintro b ⟨hb, heq⟩
    rw [← heq]
    exact root_le _ _

/-- A stopped run has united the relationships of the processed nodes. -/
theorem exists_classesBelow (hg : g.Built) {settings : ComponentSettings} (hone : settings.concurrency = 1)
    (hprocessed : processed ≤ g.nodeCount) :
    ∃ c, compute g settings (some processed) = .ok c ∧ c.terminated = true ∧ ClassesBelow g processed c := by
  have hvalid : settings.validate = .ok () := by
    rw [ComponentSettings.validate, checkConcurrency, if_neg (by omega)]
  have hpool : Pool.new? settings.concurrency = .ok ⟨settings.concurrency, hone.ge⟩ := dif_pos hone.ge
  have hwalked := @Crew.handOut_partitions_alone ⟨settings.concurrency, hone.ge⟩ hone g.nodeCount
    settings.concurrency (some processed) (.new "WCC" g.nodeCount 10)
  rw [StopAfter.within_of_le hprocessed, StopAfter.reached_of_le hprocessed] at hwalked
  have hsets := setsOfTrace_eq g ((Crew.forPartitions ⟨settings.concurrency, hone.ge⟩
    (rangePartition g.nodeCount settings.concurrency) false (.new "WCC" g.nodeCount 10)).handOut
      (some processed)).visits.toList
  rw [hwalked.nodes_eq] at hsets
  rw [compute, hvalid, hpool]
  refine ⟨_, rfl, hwalked.stopped_eq, ?_⟩
  simp only [hsets]
  exact classesBelow_roots hg processed _

end Components

/-! ## Sources -/

namespace Search

variable {κ ρ : Type} [PathCost κ] [Reckoning ρ]

/-- Where every source but the last leaves new buffers behind, each adds what it adds with new buffers. -/
theorem visitAll_range_scores {measure : Measure κ} {nodeCount count : Nat}
    (h : ∀ source < count - 1, ∀ scores : Array ρ,
      (visit measure source (new nodeCount measure.hasCosts) scores).1 = new nodeCount measure.hasCosts)
    (scores : Array ρ) :
    (visitAll measure (List.range count) (new nodeCount measure.hasCosts, scores)).2 =
      addAmounts ((List.range count).flatMap (contribution measure nodeCount)) scores := by
  cases count with
  | zero => rfl
  | succ count =>
    rw [Nat.add_sub_cancel] at h
    have hearlier := visitAll_new (fun source hsource => h source (List.mem_range.mp hsource)) scores
    rw [List.range_succ, visitAll_concat, hearlier, visit_scores_new, List.flatMap_append, List.flatMap_singleton,
      addAmounts, addAmounts, addAmounts, List.foldl_append]

/-- The scores of a worker alone. -/
theorem scoresOfTrace_alone (measure : Measure κ) (nodeCount : Nat) (nodes : List Nat) :
    (scoresOfTrace measure nodeCount 1 (nodes.map (Visit.mk 0)) : Array ρ) =
      (visitAll measure nodes (new nodeCount measure.hasCosts,
        Array.replicate nodeCount (Reckoning.ofCount 0))).2 := by
  have hfold : ∀ (s : Search κ ρ) (scores : Array ρ),
      (nodes.map (Visit.mk 0)).foldl (fun state v => onWorker (visit measure v.node) v.worker state.1 state.2)
        ([s], scores) = ([(visitAll measure nodes (s, scores)).1], (visitAll measure nodes (s, scores)).2) := by
    induction nodes with
    | nil => exact fun s scores => rfl
    | cons node nodes ih => exact fun s scores => ih _ _
  exact congrArg Prod.snd (hfold _ _)

end Search

namespace Betweenness

variable {g : Graph} {byWeight : Bool} {source count processed : Nat}

/-- Each of the first sources reaches at finite cost whatever it reaches, if costs are added up at all. -/
def FiniteBefore (g : Graph) (byWeight : Bool) (count : Nat) : Prop :=
  byWeight = true → ∀ source < count, g.ReachesFinitely source

/-- The scores that the first sources add up to, each of them by a search with new buffers. -/
def ownScores (g : Graph) (byWeight : Bool) (count : Nat) : Array Float :=
  Search.addAmounts ((List.range count).flatMap (Search.contribution (measureOf g byWeight) g.nodeCount))
    (Array.replicate g.nodeCount 0)

/-- The buffers and the scores of a worker alone behind the first sources. -/
def loopAfter (g : Graph) (byWeight : Bool) (count : Nat) : Search Float Float × Array Float :=
  Search.visitAll (measureOf g byWeight) (List.range count)
    (Search.new g.nodeCount (measureOf g byWeight).hasCosts, Array.replicate g.nodeCount 0)

/-- What a run returns for scores that have been added up. -/
def published (g : Graph) (scores : Array Float) : Paged Binary64 :=
  .ofArray ((Search.halve g.isUndirected scores).map Binary64.ofFloat)

/-- A search by hops leaves new buffers behind. -/
theorem visit_hops_new {ρ : Type} [Reckoning ρ] (hg : g.Built) {source : Nat} (hsource : source < g.nodeCount)
    (scores : Array ρ) :
    (Search.visit (measureOf g false) source (Search.new g.nodeCount false) scores).1 =
      Search.new g.nodeCount false := by
  have hcomplete := @Search.complete_breadthFirst Float ρ _ source g.nodeCount g.targets _
    (fun u target htarget => hg.target_lt htarget) hsource false
  rw [Search.visit_eq]
  exact hcomplete.accumulate_fst scores

/-- A search leaves new buffers behind exactly when it goes by hops or reaches at finite cost whatever it reaches. -/
theorem visit_new_iff (hg : g.Built) (hweights : byWeight = true → checkWeights g = .ok ())
    (hsource : source < g.nodeCount) (scores : Array Float) :
    (Search.visit (measureOf g byWeight) source (Search.new g.nodeCount (measureOf g byWeight).hasCosts) scores).1 =
        Search.new g.nodeCount (measureOf g byWeight).hasCosts ↔ (byWeight = true → g.ReachesFinitely source) := by
  cases byWeight with
  | false => exact iff_of_true (visit_hops_new hg hsource scores) fun h => absurd h (by decide)
  | true => exact (visit_eq_new_iff hg (hweights rfl) hsource scores).trans (by simp)

/-- The first sources add their own contributions if all of them but the last leave new buffers behind. -/
theorem loopAfter_scores (hg : g.Built) (hweights : byWeight = true → checkWeights g = .ok ())
    (hcount : count ≤ g.nodeCount) (hfinite : FiniteBefore g byWeight (count - 1)) :
    (loopAfter g byWeight count).2 = ownScores g byWeight count := by
  refine Search.visitAll_range_scores (fun source hsource scores => ?_) _
  exact (visit_new_iff hg hweights (by omega) scores).mpr fun h => hfinite h source hsource

/-- They find new buffers, and leave such behind, exactly when each of them reaches at finite cost whatever it
reaches. -/
theorem loopAfter_new_iff (hg : g.Built) (hweights : byWeight = true → checkWeights g = .ok ())
    (hcount : count ≤ g.nodeCount) :
    (∀ earlier ≤ count, (loopAfter g byWeight earlier).1 =
        Search.new g.nodeCount (measureOf g byWeight).hasCosts) ↔ FiniteBefore g byWeight count := by
  have hinitial : ∀ earlier, earlier <+: List.range count ↔ ∃ first ≤ count, earlier = List.range first := by
    intro earlier
    constructor
    · intro h
      refine ⟨earlier.length, by simpa using h.length_le, ?_⟩
      rw [List.prefix_iff_eq_take.mp h, List.take_range, List.length_range]
    · rintro ⟨first, hfirst, rfl⟩
      rw [List.prefix_iff_eq_take, List.length_range, List.take_range, Nat.min_eq_left hfirst]
  have hvisit : ∀ source ∈ List.range count, ∀ scores : Array Float,
      (Search.visit (measureOf g byWeight) source
        (Search.new g.nodeCount (measureOf g byWeight).hasCosts) scores).1 =
          Search.new g.nodeCount (measureOf g byWeight).hasCosts ↔ (byWeight = true → g.ReachesFinitely source) :=
    fun source hsource => visit_new_iff hg hweights ((List.mem_range.mp hsource).trans_le hcount)
  have hall := Search.visitAll_new_iff hvisit (Array.replicate g.nodeCount 0)
  constructor
  · intro hnew h source hsource
    refine hall.mp (fun earlier hearlier => ?_) source (List.mem_range.mpr hsource) h
    obtain ⟨first, hfirst, rfl⟩ := (hinitial earlier).mp hearlier
    exact hnew first hfirst
  · intro hfinite earlier hearlier
    exact hall.mpr (fun source hsource h => hfinite h source (List.mem_range.mp hsource)) _
      ((hinitial _).mpr ⟨earlier, hearlier, rfl⟩)

/-- A worker alone publishes the scores behind the sources that it has finished. -/
theorem compute_alone {settings : BetweennessSettings} (hvalid : settings.validate = .ok ())
    (hone : settings.concurrency = 1) (hlimit : g.nodeCount + settings.batchSize < counterLimit)
    (hweights : settings.weighted = true → checkWeights g = .ok ()) (stop : StopAfter) :
    compute g settings stop =
      .ok ⟨published g (loopAfter g settings.weighted (stop.within g.nodeCount)).2, stop.reached g.nodeCount⟩ := by
  have hpool : Pool.new? settings.concurrency = .ok ⟨settings.concurrency, hone.ge⟩ := dif_pos hone.ge
  have hwalked := @Crew.handOut_batches_alone ⟨settings.concurrency, hone.ge⟩ hone g.nodeCount
    settings.batchSize hlimit stop (.new "Betweenness" g.nodeCount 10)
  have hscores : (Search.scoresOfTrace (measureOf g settings.weighted) g.nodeCount settings.concurrency
      ((Crew.forBatches ⟨settings.concurrency, hone.ge⟩ g.nodeCount settings.batchSize false
        (.new "Betweenness" g.nodeCount 10)).handOut stop).visits.toList : Array Float) =
      (loopAfter g settings.weighted (stop.within g.nodeCount)).2 := by
    rw [hwalked.visits_eq, hone, Search.scoresOfTrace_alone]
    rfl
  have hresult := congrArg₂ (fun (scores : Array Float) stopped =>
    (.ok ⟨published g scores, stopped⟩ : Except Fault Betweenness)) hscores hwalked.stopped_eq
  rw [compute, hvalid, hpool]
  cases hweighted : settings.weighted with
  | false =>
    rw [hweighted] at hresult
    exact hresult
  | true =>
    rw [hweighted] at hresult
    change (checkWeights g >>= _) = _
    rw [hweights hweighted]
    exact hresult

/-- The scores of a stopped run, halved where pairs are met from both ends. -/
structure FinishedOnly (g : Graph) (byWeight : Bool) (processed : Nat) (full b : Betweenness) : Prop where
  /-- They are the finished sources' own, if all of these but the last reach at finite cost whatever they reach. -/
  scores_eq : FiniteBefore g byWeight (processed - 1) → b.scores = published g (ownScores g byWeight processed)
  /-- So are those of the complete run, with all sources. -/
  full_eq : FiniteBefore g byWeight (g.nodeCount - 1) → full.scores = published g (ownScores g byWeight g.nodeCount)
  /-- Exactly as long as the sources do so, they find new buffers and leave such behind. -/
  new_iff : ∀ count ≤ processed,
    (∀ earlier ≤ count, (loopAfter g byWeight earlier).1 = Search.new g.nodeCount (measureOf g byWeight).hasCosts) ↔
      FiniteBefore g byWeight count
  /-- In any case, nothing is added behind the last finished source. -/
  loop_eq : b.scores = published g (loopAfter g byWeight processed).2

/-- A stopped run has added up what the finished sources add. -/
theorem exists_finishedOnly (hg : g.Built) {settings : BetweennessSettings} (hvalid : settings.validate = .ok ())
    (hone : settings.concurrency = 1) (hlimit : g.nodeCount + settings.batchSize < counterLimit)
    (hweights : settings.weighted = true → checkWeights g = .ok ()) (hprocessed : processed ≤ g.nodeCount) :
    ∃ full b, compute g settings none = .ok full ∧ compute g settings (some processed) = .ok b ∧
      b.terminated = true ∧ FinishedOnly g settings.weighted processed full b := by
  have hall := compute_alone hvalid hone hlimit hweights
  refine ⟨_, _, hall none, hall (some processed), StopAfter.reached_of_le hprocessed, ?_⟩
  constructor
  case scores_eq =>
    intro hfinite
    rw [StopAfter.within_of_le hprocessed, loopAfter_scores hg hweights hprocessed hfinite]
  case full_eq =>
    intro hfinite
    exact congrArg (published g) (loopAfter_scores hg hweights (Nat.le_refl _) hfinite)
  case new_iff => exact fun count hcount => loopAfter_new_iff hg hweights (hcount.trans hprocessed)
  case loop_eq => rw [StopAfter.within_of_le hprocessed]

end Betweenness

/-! ## Queues -/

/-- How many nodes are processed for the inverse index. -/
def Graph.indexed (g : Graph) : Nat := if g.isUndirected then 0 else g.nodeCount

/-- A worker alone has a complete index unless it has been asked to stop meanwhile. -/
theorem InverseIndex.exists_build_alone {g : Graph} (hg : g.Built) {pool : Pool} (hone : pool.concurrency = 1)
    (stop : StopAfter) :
    ∃ index stopped, build g pool stop = .ok (index, stop.within g.indexed, stopped) ∧
      (stopped = true → stop.reached g.indexed = true) ∧ (stop.reached g.indexed = false → index.Inverts g) := by
  cases hundirected : g.isUndirected with
  | true =>
    have hindexed : g.indexed = 0 := if_pos hundirected
    refine ⟨.targets g, false, ?_, fun h => absurd h (by simp), fun _ => inverts_targets hg hundirected⟩
    rw [build, if_pos hundirected, hindexed, Nat.le_zero.mp (stop.within_le 0)]
    rfl
  | false =>
    have hindexed : g.indexed = g.nodeCount := if_neg (by simp [hundirected])
    have hwalked := Crew.handOut_partitions_alone hone g.nodeCount pool.concurrency stop
      (.new "NodeSimilarity inverse index" g.nodeCount 10)
    obtain ⟨index, hindex, hfinds⟩ := @exists_ofTrace_of_visits g 1 pool.concurrency _ hg pool.positive
      hwalked.worker_lt
    rw [hwalked.nodes_eq] at hfinds
    have hsize := congrArg List.length hwalked.visits_eq
    rw [Array.length_toList, List.length_map, List.length_range] at hsize
    have hworkers := congrArg Array.size hwalked.stages_eq
    rw [hindexed]
    refine ⟨index, stop.reached g.nodeCount, ?_, id, fun hreached source target htarget other => ?_⟩
    · rw [build, if_neg (by simp [hundirected])]
      simp only [hworkers, hsize, hwalked.stopped_eq, List.size_toArray, List.length_singleton, hindex]
      rfl
    · rw [hfinds source target htarget other, stop.within_of_not_reached hreached, and_iff_right_iff_imp]
      exact fun hother => List.mem_range.mpr (hg.source_lt hother)

namespace Similarity

variable {g : Graph} {s : SimilaritySettings} {processed : Nat}

/-- Queues are filed under their nodes. -/
theorem node_of_mem_partnersAt (g : Graph) (s : SimilaritySettings) (u : Nat) : ∀ p ∈ partnersAt g s u, p.node = u := by
  intro p hp
  rw [(mem_partnersAt.mp hp).1]

/-- What a worker finds at nodes that it has an inverse index for. -/
theorem foldl_compare (hg : g.Built) (hparallel : g.parallel = false) (hcapacity : 0 < s.perNode.capacity)
    {index : InverseIndex} {nodes : List Nat} (hindex : ∀ node ∈ nodes, index.Inverts g) (own : Comparisons) :
    (nodes.foldl (fun own node => compare g s index node own) own).neighbors.reverse =
      own.neighbors.reverse ++ nodes.flatMap (partnersAt g s) := by
  induction nodes generalizing own with
  | nil => rw [List.foldl_nil, List.flatMap_nil, List.append_nil]
  | cons node rest ih =>
    obtain ⟨hfirst, hrest⟩ := List.forall_mem_cons.mp hindex
    have hsingle : (partnersAt g s node).reverse = partnersAt g s node := by
      rw [partnersAt]
      split <;> rfl
    rw [List.foldl_cons, ih hrest, compare_eq hg hparallel hcapacity hfirst, List.reverse_append, hsingle,
      List.append_assoc, List.flatMap_cons]

/-- The neighbors that a worker alone has found at the first nodes. -/
theorem neighbors_alone (hg : g.Built) (hparallel : g.parallel = false) (hcapacity : 0 < s.perNode.capacity)
    {index : InverseIndex} (hindex : 0 < processed → index.Inverts g) (hprocessed : processed ≤ g.nodeCount)
    (terminated : Bool) :
    (ofTrace g s index 1 ((List.range processed).map (Visit.mk 0)) terminated).neighbors =
      (List.range processed).flatMap (partnersAt g s) := by
  have hinverts : ∀ node ∈ List.range processed, index.Inverts g := fun node hnode =>
    hindex (Nat.zero_lt_of_lt (List.mem_range.mp hnode))
  have hown : ∀ (nodes : List Nat) (own : Comparisons),
      (nodes.map (Visit.mk 0)).foldl (fun own v => own.modify v.worker (compare g s index v.node)) #[own] =
        #[nodes.foldl (fun own node => compare g s index node own) own] := by
    intro nodes
    induction nodes with
    | nil => exact fun own => rfl
    | cons node rest ih => exact fun own => ih _
  have hsorted : ((List.range processed).flatMap (partnersAt g s)).Pairwise
      fun a b => decide (a.node ≤ b.node) = true := by
    rw [flatMap_range_eq_filter (node_of_mem_partnersAt g s) hprocessed]
    exact ((ascending_whole g s).filter _).imp fun hlt => decide_eq_true (Nat.le_of_lt hlt)
  have hfound := foldl_compare hg hparallel hcapacity hinverts {}
  rw [List.reverse_nil, List.nil_append] at hfound
  simp only [ofTrace, Array.replicate_one, hown, List.flatMap_cons, List.flatMap_nil, List.append_nil, hfound]
  exact List.mergeSort_of_pairwise hsorted

/-- What a run with one worker needs to come back. -/
structure Accepts (g : Graph) (s : SimilaritySettings) : Prop where
  /-- The settings are valid. -/
  valid : s.validate = .ok ()
  /-- No two relationships are parallel. -/
  simple : g.parallel = false
  /-- There is room for the partners of every node. -/
  room : ∀ node < g.nodeCount, checkRoom g s node = .ok ()
  /-- There is room for the pairs that are selected over all nodes. -/
  roomOverall : ∃ selection, s.overall.mapM Selection.new? = .ok selection

/-- Where there is room, the task of a worker is but to wait for the request. -/
theorem task_of_room {node : Nat} (h : checkRoom g s node = .ok ()) (stop : StopAfter) (before : Nat) :
    task g s stop before node = stop.task before node := by
  rw [task, h]

/-- A worker alone finds what there is to find at the nodes that the request leaves for the second phase. -/
theorem exists_compute_alone (hg : g.Built) (h : Accepts g s) (hone : s.concurrency = 1)
    (hlimit : g.nodeCount + s.batchSize < counterLimit) (stop : StopAfter) :
    ∃ r, compute g s stop = .ok r ∧ r.terminated = (stop.later g.indexed).reached g.nodeCount ∧
      r.neighbors = (List.range ((stop.later g.indexed).within g.nodeCount)).flatMap (partnersAt g s) := by
  obtain ⟨-, hcapacity⟩ := SimilaritySettings.of_validate h.valid
  have hpool : Pool.new? s.concurrency = .ok ⟨s.concurrency, hone.ge⟩ := dif_pos hone.ge
  have hsimple : checkSimple g = .ok () := by
    rw [checkSimple, h.simple]
    rfl
  obtain ⟨index, stopped, hbuild, hstopped, hinverts⟩ :=
    @InverseIndex.exists_build_alone g hg ⟨s.concurrency, hone.ge⟩ hone stop
  rw [← StopAfter.reached_later] at hstopped hinverts
  have hbegin : (stopped || (stop.later g.indexed).reached 0) = (stop.later g.indexed).reached 0 := by
    cases stopped with
    | false => rfl
    | true => exact (hstopped rfl).symm
  have hwalk : walk (task g s (stop.later g.indexed)) (stopped || (stop.later g.indexed).reached 0) 0
      (List.range g.nodeCount) = ⟨List.range ((stop.later g.indexed).within g.nodeCount),
        (stop.later g.indexed).reached g.nodeCount, .value ()⟩ := by
    rw [walk_congr fun before node hnode => task_of_room (h.room node (List.mem_range.mp hnode)) _ before, hbegin,
      StopAfter.walk_range]
  have hwalked := @Crew.settle_begin_alone ⟨s.concurrency, hone.ge⟩ hone g.nodeCount s.batchSize hlimit
    (task g s (stop.later g.indexed)) stopped (stop.later g.indexed) (.new "NodeSimilarity" g.nodeCount 10)
  rw [hwalk] at hwalked
  obtain ⟨selection, hselection⟩ := h.roomOverall
  refine ⟨ofTrace g s index s.concurrency ((List.range ((stop.later g.indexed).within g.nodeCount)).map (Visit.mk 0))
    ((stop.later g.indexed).reached g.nodeCount), ?_, rfl, ?_⟩
  · rw [compute, h.valid, hsimple, hpool]
    change (InverseIndex.build g ⟨s.concurrency, hone.ge⟩ stop).bind _ = _
    rw [hbuild]
    simp only [Except.bind, StopAfter.later_within, hwalked.outcome_eq rfl, hselection, hwalked.visits_eq,
      hwalked.stopped_eq]
    rfl
  · rw [hone]
    exact neighbors_alone hg h.simple hcapacity (fun hpos => hinverts (StopAfter.not_reached_of_within_pos hpos))
      (StopAfter.within_le _ _) _

/-- **A run that comes back has had what it needs.** -/
theorem accepts_of_compute (hg : g.Built) (hone : s.concurrency = 1)
    (hlimit : g.nodeCount + s.batchSize < counterLimit) {full : Similarity} (h : compute g s none = .ok full) :
    Accepts g s := by
  obtain ⟨⟨⟩, hvalid, h⟩ := ok_of_bind h
  obtain ⟨⟨⟩, hsimple, h⟩ := ok_of_bind h
  obtain ⟨pool, hpool, h⟩ := ok_of_bind h
  obtain ⟨⟨index, processed, stopped⟩, hbuild, h⟩ := ok_of_bind h
  obtain ⟨results, houtcome, h⟩ := ok_of_bind h
  obtain ⟨selection, hselection, -⟩ := ok_of_bind h
  have hnew : Pool.new? s.concurrency = .ok ⟨s.concurrency, hone.ge⟩ := dif_pos hone.ge
  obtain rfl := Except.ok.inj (hpool.symm.trans hnew)
  obtain ⟨other, asked, hother, hasked, -⟩ :=
    @InverseIndex.exists_build_alone g hg ⟨s.concurrency, hone.ge⟩ hone none
  obtain ⟨rfl, rfl, rfl⟩ : index = other ∧ processed = StopAfter.within none g.indexed ∧ stopped = asked := by
    simpa using hbuild.symm.trans hother
  obtain rfl : stopped = false := Bool.eq_false_iff.mpr fun htrue => absurd (hasked htrue) (by simp [StopAfter.reached])
  have hwalked := @Crew.settle_begin_alone ⟨s.concurrency, hone.ge⟩ hone g.nodeCount s.batchSize hlimit
    (task g s none) false none (.new "NodeSimilarity" g.nodeCount 10)
  constructor
  case valid => exact hvalid
  case simple =>
    by_contra hparallel
    rw [checkSimple, if_pos (by simpa using hparallel)] at hsimple
    exact absurd hsimple (by simp)
  case room =>
    intro node hnode
    have hnever : ∀ before node, task g s none before node ≠ .doneAndStop := by
      intro before node
      unfold task
      split
      · simp [StopAfter.task]
      · simp
    obtain ⟨before, hdone⟩ := done_of_walk hnever (hwalked.value_of_outcome houtcome) node (List.mem_range.mpr hnode)
    cases hroom : checkRoom g s node with
    | ok _ => rfl
    | error cause =>
      rw [task, hroom] at hdone
      exact absurd hdone (by simp)
  case roomOverall => exact ⟨selection, hselection⟩

/-- The queues are those of the processed nodes, as they are in the complete run. -/
structure QueuesOf (g : Graph) (s : SimilaritySettings) (processed : Nat) (full r : Similarity) : Prop where
  /-- The complete run has the same queues for the processed nodes, and no others for them. -/
  neighbors_eq : r.neighbors = full.neighbors.filter fun partners => decide (partners.node < processed)
  /-- Each of them has the best of all pairs of its node. -/
  isBest : ∀ partners ∈ r.neighbors,
    IsBest s.perNode (fun p => ∃ v, Similar g s partners.node v ∧ p = pair g s partners.node v) partners.kept.entries

/-- A stopped run has the queues of the nodes that it has processed in the second phase. -/
theorem exists_queuesOf (hg : g.Built) (hone : s.concurrency = 1) (hlimit : g.nodeCount + s.batchSize < counterLimit)
    {full : Similarity} (hfull : compute g s none = .ok full) {asked : Nat}
    (hasked : asked ≤ g.indexed + g.nodeCount) :
    ∃ r, compute g s (some asked) = .ok r ∧ r.terminated = true ∧ QueuesOf g s (asked - g.indexed) full r := by
  have haccepts := accepts_of_compute hg hone hlimit hfull
  obtain ⟨-, hcapacity⟩ := SimilaritySettings.of_validate haccepts.valid
  obtain ⟨whole, hwhole, -, hall⟩ := exists_compute_alone hg haccepts hone hlimit none
  obtain rfl := Except.ok.inj (hfull.symm.trans hwhole)
  obtain ⟨r, hr, hterminated, hneighbors⟩ := exists_compute_alone hg haccepts hone hlimit (some asked)
  have hle : asked - g.indexed ≤ g.nodeCount := by omega
  change r.terminated = StopAfter.reached (some (asked - g.indexed)) g.nodeCount at hterminated
  change r.neighbors = (List.range (StopAfter.within (some (asked - g.indexed)) g.nodeCount)).flatMap _ at hneighbors
  rw [StopAfter.reached_of_le hle] at hterminated
  rw [StopAfter.within_of_le hle] at hneighbors
  refine ⟨r, hr, hterminated, ?_, fun partners hpartners => ?_⟩
  · rw [hneighbors, hall]
    exact flatMap_range_eq_filter (node_of_mem_partnersAt g s) hle
  · rw [hneighbors] at hpartners
    obtain ⟨u, -, hmem⟩ := List.mem_flatMap.mp hpartners
    obtain ⟨rfl, -⟩ := mem_partnersAt.mp hmem
    exact isBest_keptAt hg haccepts.simple hcapacity u

end Similarity

/-! ## All analyses -/

/-- **What a stopped run returns is honest.**  Let a worker be alone, and let it be asked to stop before it begins or
while it processes any node.  It has processed the nodes up to that one, and every analysis knows that it has been
stopped.  The triangles that it has counted are those whose smallest corners were processed; the classes that it has
united are those of the relationships of the processed nodes; and the queues that it has filled are those that the
processed nodes have in the complete run, none if the inverse index was not complete.  The scores that it has added up
are the finished sources' own, unless one of these but the last reaches a node by weight at infinite cost only: then
later sources do not find new buffers. -/
theorem partial_results_honest {g : Graph} (hg : g.Built) :
    (∀ (pool : Pool) (progress : Progress) (asked : Nat), pool.concurrency = 1 → asked ≤ g.nodeCount →
      ((Crew.forPartitions pool (rangePartition g.nodeCount pool.concurrency) false progress).handOut
        (some asked)).visits.toList.map Visit.node = List.range asked ∧
      ∀ batch, g.nodeCount + batch < counterLimit →
        ((Crew.forBatches pool g.nodeCount batch false progress).handOut (some asked)).visits.toList.map Visit.node =
          List.range asked) ∧
    (∀ (settings : TriangleSettings) (asked : Nat), settings.concurrency = 1 →
      g.nodeCount + TriangleCounts.batchSize < counterLimit → g.isUndirected = true → g.parallel = false →
      asked ≤ g.nodeCount →
      ∃ full t, TriangleCounts.compute g settings none = .ok full ∧
        TriangleCounts.compute g settings (some asked) = .ok t ∧ t.terminated = true ∧
        TriangleCounts.CountsBelow g settings.maxDegree asked full t) ∧
    (∀ (settings : ComponentSettings) (asked : Nat), settings.concurrency = 1 → asked ≤ g.nodeCount →
      ∃ c, Components.compute g settings (some asked) = .ok c ∧ c.terminated = true ∧
        Components.ClassesBelow g asked c) ∧
    (∀ (settings : BetweennessSettings) (asked : Nat), settings.validate = .ok () → settings.concurrency = 1 →
      g.nodeCount + settings.batchSize < counterLimit →
      (settings.weighted = true → Betweenness.checkWeights g = .ok ()) → asked ≤ g.nodeCount →
      ∃ full b, Betweenness.compute g settings none = .ok full ∧
        Betweenness.compute g settings (some asked) = .ok b ∧ b.terminated = true ∧
        Betweenness.FinishedOnly g settings.weighted asked full b) ∧
    ∀ (settings : SimilaritySettings) (asked : Nat) (full : Similarity), settings.concurrency = 1 →
      g.nodeCount + settings.batchSize < counterLimit → Similarity.compute g settings none = .ok full →
      asked ≤ g.indexed + g.nodeCount →
      ∃ r, Similarity.compute g settings (some asked) = .ok r ∧ r.terminated = true ∧
        Similarity.QueuesOf g settings (asked - g.indexed) full r := by
  refine ⟨fun pool progress asked hone hasked => ?_, ?_, ?_, ?_, ?_⟩
  · have hpartitions := Crew.handOut_partitions_alone hone g.nodeCount pool.concurrency (some asked) progress
    have hwithin : StopAfter.within (some asked) g.nodeCount = asked := StopAfter.within_of_le hasked
    refine ⟨hpartitions.nodes_eq.trans (congrArg List.range hwithin), fun batch hlimit => ?_⟩
    have hbatches := Crew.handOut_batches_alone hone hlimit (some asked) progress
    exact hbatches.nodes_eq.trans (congrArg List.range hwithin)
  · intro settings asked hone hlimit hundirected hparallel hasked
    exact TriangleCounts.exists_countsBelow hg hundirected hparallel hone hlimit hasked
  · intro settings asked hone hasked
    exact Components.exists_classesBelow hg hone hasked
  · intro settings asked hvalid hone hlimit hweights hasked
    exact Betweenness.exists_finishedOnly hg hvalid hone hlimit hweights hasked
  · intro settings asked full hone hlimit hfull hasked
    exact Similarity.exists_queuesOf hg hone hlimit hfull hasked

/-- Stopped after the first node, a run has counted the triangle at it, and not the one behind it.  Stopped while the
inverse index is built, a run has compared nothing. -/
theorem partial_results_of_first_nodes :
    (∃ g : Graph, g.Built ∧
      (∃ full t, TriangleCounts.compute g { concurrency := 1 } none = .ok full ∧
        TriangleCounts.compute g { concurrency := 1 } (some 1) = .ok t ∧ t.terminated = true ∧ t.total = 1) ∧
      (∃ c, Components.compute g { concurrency := 1 } (some 1) = .ok c ∧ c.terminated = true ∧
        c.representatives.size = 5) ∧
      ∃ b, Betweenness.compute g { concurrency := 1 } (some 0) = .ok b ∧ b.terminated = true ∧
        b.scores = .ofArray (Array.replicate 5 (.ofFloat 0))) ∧
    ∃ g : Graph, g.Built ∧ ∃ r,
      Similarity.compute g { concurrency := 1, cutoff := 0, topK := some 1 } (some 3) = .ok r ∧
      r.terminated = true ∧ r.neighbors = [] := by
  constructor
  · obtain ⟨g, hg, hcount, hundirected, hparallel, hsets⟩ := exists_commonSide
    obtain ⟨-, htriangles, hcomponents, hbetweenness, -⟩ := partial_results_honest hg
    obtain ⟨full, t, hfull, ht, hterminated, hcounts⟩ := htriangles { concurrency := 1 } 1 rfl
      (by rw [hcount]; decide) hundirected hparallel (by rw [hcount]; decide)
    obtain ⟨c, hc, hterminated', hclasses⟩ := hcomponents { concurrency := 1 } 1 rfl (by rw [hcount]; decide)
    obtain ⟨_, b, -, hb, hterminated'', hfinished⟩ := hbetweenness { concurrency := 1 } 0 rfl rfl
      (by rw [hcount]; decide) (fun h => absurd h (by decide)) (Nat.zero_le _)
    refine ⟨g, hg, ⟨full, t, hfull, ht, hterminated, ?_⟩, ⟨c, hc, hterminated', hclasses.size_eq.trans hcount⟩,
      b, hb, hterminated'', ?_⟩
    · rw [hcounts.total_eq, Graph.triangleSetsBelow, hsets]
      decide +kernel
    · rw [hfinished.scores_eq fun h => absurd h (by decide), Betweenness.published, hundirected, Betweenness.ownScores,
        hcount]
      refine congrArg Paged.ofArray ?_
      change (Search.halve true (Array.replicate 5 (0 : Float))).map Binary64.ofFloat = _
      decide +kernel
  · obtain ⟨g, hg, hcount, hparallel, htargets⟩ := exists_sharedWays
    obtain ⟨-, -, -, -, hsimilarity⟩ := partial_results_honest hg
    have hdirected : g.isUndirected = false := by
      refine Bool.eq_false_iff.mpr fun hundirected => ?_
      have htarget : 2 ∈ g.targets 0 := by
        rw [htargets 0 (by decide)]
        decide
      rw [hg.mem_comm hundirected, htargets 2 (by decide)] at htarget
      exact absurd htarget (by decide)
    have hindexed : g.indexed = 5 := (if_neg (by simp [hdirected])).trans hcount
    have hfull := @Similarity.compute_eq_withOverall g { concurrency := 1, cutoff := 0, topK := some 1 } hg hparallel
      (by decide) (by rw [hcount]; decide) (by decide) (by decide)
    obtain ⟨r, hr, hterminated, hqueues⟩ := hsimilarity { concurrency := 1, cutoff := 0, topK := some 1 } 3 _ rfl
      (by rw [hcount]; decide) hfull (by rw [hindexed]; omega)
    refine ⟨g, hg, r, hr, hterminated, ?_⟩
    rw [hqueues.neighbors_eq, hindexed]
    exact List.filter_eq_nil_iff.mpr fun partners _ => by simp

/-- Stopped behind four sources none of which contributes anything by itself, a run has scored the last node: the
fourth source adds a share that the first has left behind. -/
theorem leftovers_scored_when_stopped :
    ∃ g : Graph, g.Built ∧ Betweenness.checkWeights g = .ok () ∧
      (∀ source < 4, Search.addAmounts (Search.contribution (Betweenness.measureOf g true) g.nodeCount source)
        (Array.replicate g.nodeCount (0 : Float)) = Array.replicate g.nodeCount 0) ∧
      Betweenness.ownScores g true 4 = #[0, 0, 0, 0, 0] ∧
      ∃ b, Betweenness.compute g { concurrency := 1, weighted := true } (some 4) = .ok b ∧ b.terminated = true ∧
        b.scores = Betweenness.published g #[0, 0, 0, 0, 1] ∧
        b.scores ≠ Betweenness.published g (Betweenness.ownScores g true 4) := by
  obtain ⟨g, hg, hcount, hundirected, hmeasure, hcheck⟩ := exists_measured_overflow
  have hrun := @Betweenness.compute_alone g { concurrency := 1, weighted := true } rfl rfl (by rw [hcount]; decide)
    (fun _ => hcheck) (some 4)
  have hown : Betweenness.ownScores g true 4 = #[0, 0, 0, 0, 0] := by
    rw [Betweenness.ownScores, hmeasure, hcount]
    decide +kernel
  have hloop : (Betweenness.loopAfter g true 4).2 = #[0, 0, 0, 0, 1] := by
    rw [Betweenness.loopAfter, hmeasure, hcount]
    decide +kernel
  refine ⟨g, hg, hcheck, ?_, hown, _, hrun, ?_, ?_, ?_⟩
  · rw [hmeasure, hcount]
    decide +kernel
  · rw [hcount]
    rfl
  · rw [hcount]
    exact congrArg (Betweenness.published g) hloop
  · rw [hcount, hown]
    intro hsame
    have hlists := congrArg Paged.toList ((congrArg (Betweenness.published g) hloop).symm.trans hsame)
    rw [Betweenness.published, Betweenness.published, hundirected] at hlists
    revert hlists
    decide +kernel

end PackedGraph
