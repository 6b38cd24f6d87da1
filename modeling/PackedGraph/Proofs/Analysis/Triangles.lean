import PackedGraph.Analysis.Triangles
import PackedGraph.Proofs.Graph.Triangles
import PackedGraph.Proofs.Numeric.Quotients
import PackedGraph.Proofs.Workers.Batches

/-!
# Triangle counts

A worker adds to the shared counts what the node in its hands contributes, and that does not depend on
what the worker did before.  So the counts are those of a walk over the list of all triangles, in the
order in which the nodes were handed out, and counting does not depend on the order.

Main statement: `triangles_of_built`.
-/

namespace PackedGraph

variable {g : Graph} {maxDegree : Nat}

/-- How many triangles a node is a corner of. -/
def Graph.trianglesAt (g : Graph) (maxDegree node : Nat) : Nat :=
  ((g.triangleSets maxDegree).filter (node ∈ ·)).card

namespace TriangleCounts

/-- A total and counts of the nodes are those of the sets of three distinct, pairwise adjacent nodes
whose degrees do not exceed a bound. -/
structure Exact (g : Graph) (maxDegree : Nat) (counted : Nat × Array Nat) : Prop where
  /-- Every set is counted once. -/
  total_eq : counted.1 = (g.triangleSets maxDegree).card
  /-- Every node has a count. -/
  size_eq : counted.2.size = g.nodeCount
  /-- It is the number of sets that hold the node. -/
  perNode_eq : ∀ node (h : node < counted.2.size), counted.2[node] = g.trianglesAt maxDegree node
  /-- Every set is counted at its three nodes. -/
  sum_eq : counted.2.toList.sum = 3 * counted.1
  /-- A node has no more triangles than there are pairs of neighbours. -/
  pairs : ∀ node (h : node < counted.2.size), 2 * counted.2[node] ≤ g.degree node * (g.degree node - 1)
  /-- So it has none with a single neighbour. -/
  none_of_degree : ∀ node (h : node < counted.2.size), g.degree node < 2 → counted.2[node] = 0
  /-- And the share of joined pairs is at most one, -/
  share_le : ∀ node (h : node < counted.2.size),
    (2 * counted.2[node] : ℚ) / (g.degree node * (g.degree node - 1)) ≤ 1
  /-- in doubles too, where the number of pairs is a word, -/
  coefficient_le : ∀ node (h : node < counted.2.size), g.degree node ≤ 2 ^ 32 →
    coefficient counted.2[node] (g.degree node) ≤ 1
  /-- and beyond exactly if twice the count becomes no larger double than the word of that number. -/
  coefficient_le_iff : ∀ node (h : node < counted.2.size), 2 ≤ g.degree node →
    (coefficient counted.2[node] (g.degree node) ≤ 1 ↔ natToFloat (2 * counted.2[node] % 2 ^ 64) ≤
      natToFloat (g.degree node * (g.degree node - 1) % 2 ^ 64))

/-! ## What is counted at a node -/

/-- A triangle with distinct corners counts once for each of them. -/
theorem getElem?_mark (counts : Array Nat) {t : Triangle} (ht : t.a < t.b ∧ t.b < t.c) (node : Nat) :
    (mark counts t)[node]? = counts[node]?.map (· + if node ∈ t.corners then 1 else 0) := by
  obtain ⟨a, b, c⟩ := t
  obtain ⟨hab, hbc⟩ := ht
  simp only at hab hbc
  simp only [mark, Array.getElem?_modify, Triangle.corners, Finset.mem_insert, Finset.mem_singleton]
  by_cases ha : a = node
  · subst ha
    rw [if_neg (by omega), if_neg (by omega), if_pos rfl, if_pos (.inl rfl)]
  · by_cases hb : b = node
    · subst hb
      rw [if_neg (by omega), if_pos rfl, if_neg ha, if_pos (.inr (.inl rfl))]
    · by_cases hc : c = node
      · subst hc
        rw [if_pos rfl, if_neg hb, if_neg ha, if_pos (.inr (.inr rfl))]
      · rw [if_neg hc, if_neg hb, if_neg ha, if_neg (by omega)]
        simp

theorem getElem?_foldl_mark {found : List Triangle} (hfound : ∀ t ∈ found, t.a < t.b ∧ t.b < t.c)
    (counts : Array Nat) (node : Nat) :
    (found.foldl mark counts)[node]? =
      counts[node]?.map (· + found.countP fun t => decide (node ∈ t.corners)) := by
  induction found generalizing counts with
  | nil => simp
  | cons t found ih =>
    rw [List.foldl_cons, ih fun u hu => hfound u (List.mem_cons_of_mem _ hu),
      getElem?_mark counts (hfound t List.mem_cons_self), Option.map_map, List.countP_cons]
    congr 1
    funext count
    simp only [Function.comp, decide_eq_true_eq]
    omega

/-- What a visit does to the counts and to the worker's own total. -/
theorem visit_spec (hg : g.Built) {own : TriangleFinder × Nat} (h : own.1.Ready g maxDegree) (node : Nat)
    (counts : Array Nat) :
    (visit node own counts).1.1.Ready g maxDegree ∧
      (visit node own counts).2 = (g.trianglesFrom maxDegree node).foldl mark counts ∧
      (visit node own counts).1.2 = own.2 + (g.trianglesFrom maxDegree node).length := by
  obtain ⟨hfound, hready⟩ := h.trianglesOf_eq hg node
  simp only [visit, hfound]
  exact ⟨hready, trivial, trivial⟩

/-! ## Along a trace -/

/-- What a trace counts are the triangles of the visited nodes. -/
theorem ofTrace_eq (hg : g.Built) {finder : TriangleFinder} (hready : finder.Ready g maxDegree)
    {workers : Nat} {trace : List Visit} (hworkers : ∀ v ∈ trace, v.worker < workers) :
    ofTrace finder workers trace =
      (((trace.map Visit.node).flatMap (g.trianglesFrom maxDegree)).length,
        ((trace.map Visit.node).flatMap (g.trianglesFrom maxDegree)).foldl mark
          (Array.replicate g.nodeCount 0)) := by
  have hstart : ∀ own ∈ List.replicate workers (finder, 0), own.1.Ready g maxDegree := by
    intro own hown
    rw [(List.mem_replicate.mp hown).2]
    exact hready
  obtain ⟨heffect, htotal⟩ := @foldl_onWorker (TriangleFinder × Nat) (Array Nat) visit
    (fun own => own.1.Ready g maxDegree)
    (fun node counts => (g.trianglesFrom maxDegree node).foldl mark counts) Prod.snd
    (fun node => (g.trianglesFrom maxDegree node).length)
    trace (fun v _ own counts hown => visit_spec hg hown v.node counts) _ hstart
    (by simpa using hworkers) (Array.replicate g.nodeCount 0)
  rw [ofTrace, hready.graph_eq]
  refine Prod.ext ?_ ?_
  · refine (foldl_add_eq_sum Prod.snd _ 0).trans ?_
    rw [Nat.zero_add, htotal, List.length_flatMap]
    simp
  · rw [heffect, List.foldl_flatMap]

/-! ## What the counts are -/

/-- Twice the triangles at a node are no more than the ordered pairs of its neighbours, so there are none
with a single neighbour. -/
theorem trianglesAt_eq_zero (hg : g.Built) (hparallel : g.parallel = false) {node : Nat}
    (hdegree : g.degree node < 2) : g.trianglesAt maxDegree node = 0 := by
  have hpairs : 2 * g.trianglesAt maxDegree node ≤ g.degree node * (g.degree node - 1) :=
    Graph.two_mul_card_le hg hparallel node
  have hzero : g.degree node * (g.degree node - 1) = 0 := by
    rw [Nat.mul_eq_zero]
    omega
  omega

theorem share_le_one (hg : g.Built) (hparallel : g.parallel = false) (node : Nat) :
    (2 * g.trianglesAt maxDegree node : ℚ) / (g.degree node * (g.degree node - 1)) ≤ 1 := by
  rcases Nat.lt_or_ge (g.degree node) 2 with hdegree | hdegree
  · rw [trianglesAt_eq_zero hg hparallel hdegree, Nat.cast_zero, mul_zero, zero_div]
    exact zero_le_one
  · have hone : (1 : ℚ) < g.degree node := by exact_mod_cast hdegree
    have hpairs : ((2 * g.trianglesAt maxDegree node : Nat) : ℚ) ≤
        (g.degree node * (g.degree node - 1) : Nat) := by
      exact_mod_cast Graph.two_mul_card_le hg hparallel node
    rw [div_le_one (mul_pos (by linarith) (by linarith))]
    push_cast [Nat.cast_sub (Nat.le_of_succ_le hdegree)] at hpairs
    exact hpairs

theorem coefficient_le_one {triangles degree : Nat} (hpairs : 2 * triangles ≤ degree * (degree - 1))
    (hdegree : degree ≤ 2 ^ 32) : coefficient triangles degree ≤ 1 := by
  rw [coefficient]
  split
  · decide
  · rename_i htwo
    have hsome : 0 < degree * (degree - 1) := Nat.mul_pos (by omega) (by omega)
    obtain ⟨hpacked, -, hle⟩ := quotient_le_one hpairs hsome (pairs_lt hdegree)
    exact (le_one_iff_value hpacked.isFinite).mpr hle

/-- A degree is a word, as the number of nodes is. -/
theorem degree_lt (hg : g.Built) (hparallel : g.parallel = false) {node : Nat} (hdegree : 2 ≤ g.degree node) :
    g.degree node < 2 ^ 64 := by
  rw [hg.degree_eq] at hdegree ⊢
  obtain ⟨target, htarget⟩ := List.exists_mem_of_length_pos (Nat.lt_of_lt_of_le Nat.two_pos hdegree)
  have hsubset : g.targets node ⊆ List.range g.nodeCount := fun _ h => List.mem_range.mpr (hg.target_lt h)
  have hnodup : (g.targets node).Nodup := (hg.strict hparallel node).imp Nat.ne_of_lt
  have hlength := (hnodup.subperm hsubset).length_le
  rw [List.length_range] at hlength
  exact Nat.lt_of_le_of_lt (hlength.trans (hg.nodeCount_le htarget)) (by decide)

theorem coefficient_le_one_iff {triangles degree : Nat} (htwo : 2 ≤ degree) (hword : degree < 2 ^ 64) :
    coefficient triangles degree ≤ 1 ↔
      natToFloat (2 * triangles % 2 ^ 64) ≤ natToFloat (degree * (degree - 1) % 2 ^ 64) := by
  rw [coefficient, if_neg (by omega), natToFloat_mod, natToFloat_mod]
  exact (quotient_iff (pairs_mod_pos htwo hword)).2

/-- The nodes are counted as often as they are corners, in whatever order the triangles are found. -/
theorem foldl_mark_eq (hg : g.Built) (hundirected : g.isUndirected = true) (hparallel : g.parallel = false)
    {found : List Triangle} (hfound : found.Perm (g.allTriangles maxDegree)) :
    found.foldl mark (Array.replicate g.nodeCount 0) =
      ((List.range g.nodeCount).map (g.trianglesAt maxDegree)).toArray := by
  have hascending : ∀ t ∈ found, t.a < t.b ∧ t.b < t.c := fun t ht =>
    ((Graph.mem_allTriangles hg).mp (hfound.mem_iff.mp ht)).1
  refine Array.ext_getElem? fun node => ?_
  rw [getElem?_foldl_mark hascending, hfound.countP_eq,
    Graph.countP_allTriangles hg hundirected hparallel (node ∈ ·), Array.getElem?_replicate,
    List.getElem?_toArray, List.getElem?_map]
  by_cases hnode : node < g.nodeCount
  · rw [if_pos hnode, List.getElem?_range hnode, Option.map_some, Option.map_some, Nat.zero_add]
    rfl
  · rw [if_neg hnode, List.getElem?_eq_none (by simpa using hnode)]
    rfl

theorem length_eq_card (hg : g.Built) (hundirected : g.isUndirected = true) (hparallel : g.parallel = false)
    {found : List Triangle} (hfound : found.Perm (g.allTriangles maxDegree)) :
    found.length = (g.triangleSets maxDegree).card := by
  have hcount := @Graph.countP_allTriangles g maxDegree hg hundirected hparallel (fun _ => True) _
  rw [Finset.filter_true_of_mem fun _ _ => trivial, ← hfound.countP_eq] at hcount
  simpa using hcount

/-- A total and counts of the nodes that are found in a permutation of all triangles are exact. -/
theorem exact_of_perm (hg : g.Built) (hundirected : g.isUndirected = true) (hparallel : g.parallel = false)
    {found : List Triangle} (hfound : found.Perm (g.allTriangles maxDegree)) :
    Exact g maxDegree (found.length, found.foldl mark (Array.replicate g.nodeCount 0)) := by
  rw [foldl_mark_eq hg hundirected hparallel hfound, length_eq_card hg hundirected hparallel hfound]
  have hperNode : ∀ node (h : node < ((List.range g.nodeCount).map (g.trianglesAt maxDegree)).toArray.size),
      ((List.range g.nodeCount).map (g.trianglesAt maxDegree)).toArray[node] = g.trianglesAt maxDegree node := by
    intro node h
    rw [List.getElem_toArray, List.getElem_map, List.getElem_range]
  constructor
  case total_eq => rfl
  case size_eq => rw [List.size_toArray, List.length_map, List.length_range]
  case perNode_eq => exact hperNode
  case sum_eq =>
    rw [← Graph.sum_card_triangleSets]
    rfl
  case pairs =>
    intro node h
    rw [hperNode node h]
    exact Graph.two_mul_card_le hg hparallel node
  case none_of_degree =>
    intro node h hdegree
    rw [hperNode node h]
    exact trianglesAt_eq_zero hg hparallel hdegree
  case share_le =>
    intro node h
    rw [hperNode node h]
    exact share_le_one hg hparallel node
  case coefficient_le =>
    intro node h hdegree
    rw [hperNode node h]
    exact coefficient_le_one (Graph.two_mul_card_le hg hparallel node) hdegree
  case coefficient_le_iff =>
    intro node h htwo
    exact coefficient_le_one_iff htwo (degree_lt hg hparallel htwo)

/-- A trace that hands out all nodes counts all triangles. -/
theorem exact_of_handsOut (hg : g.Built) (hundirected : g.isUndirected = true)
    (hparallel : g.parallel = false) {finder : TriangleFinder} (hready : finder.Ready g maxDegree)
    {workers : Nat} {trace : List Visit} (htrace : HandsOut g.nodeCount workers trace) :
    Exact g maxDegree (ofTrace finder workers trace) := by
  rw [ofTrace_eq hg hready htrace.worker_lt]
  exact exact_of_perm hg hundirected hparallel (htrace.nodes.flatMap_right _)

end TriangleCounts

/-- Calls for two triangles with a common side, a loop and a tail. -/
def commonSide : List Call :=
  [.add 0 1 none, .add 1 2 none, .add 2 0 none, .add 1 3 none, .add 3 2 none, .add 1 1 none, .add 3 4 none]

/-- Settings that store one relationship for every pair, in both directions. -/
def bothWays : RelationshipSettings := { concurrency := 2, orientation := .undirected, aggregation := .single }

/-- A graph with those relationships has those triangles. -/
theorem exists_commonSide : ∃ g : Graph, g.Built ∧ g.nodeCount = 5 ∧ g.isUndirected = true ∧ g.parallel = false ∧
    g.triangleSets largestWord = {{0, 1, 2}, {1, 2, 3}} := by
  obtain ⟨g, hg, hcount, hundirected, hparallel, htargets⟩ := @Graph.exists_built (.identity 5) bothWays 0
    commonSide (IdMap.valid_identity (by decide)) (by decide) (by decide) (by decide)
  replace hcount : g.nodeCount = 5 := hcount
  replace hundirected : g.isUndirected = true := by
    rw [hundirected]
    decide
  replace hparallel := hparallel (by decide)
  have hmem : ∀ u < 5, ∀ v, v ∈ g.targets u ↔ 0 < Graph.storedCount (.identity 5) bothWays commonSide u v := by
    intro u hu v
    rw [← htargets u hu, List.count_pos_iff]
  have hdegree : ∀ u, g.degree u ≤ largestWord := by
    intro u
    have hnodup : (g.targets u).Nodup := (hg.strict hparallel u).imp Nat.ne_of_lt
    have hsubset : g.targets u ⊆ List.range 5 := fun v hv => List.mem_range.mpr (hcount ▸ hg.target_lt hv)
    rw [hg.degree_eq]
    exact Nat.le_trans (hnodup.subperm hsubset).length_le (by decide)
  refine ⟨g, hg, hcount, hundirected, hparallel, ?_⟩
  have hlisted : g.triangleSets largestWord = ((Finset.range 5).powersetCard 3).filter fun corners =>
      ∀ a ∈ corners, ∀ b ∈ corners, a ≠ b →
        0 < Graph.storedCount (.identity 5) bothWays commonSide a b := by
    rw [Graph.triangleSets, hcount]
    refine Finset.filter_congr fun corners hcorners => ?_
    have hsubset := (Finset.mem_powersetCard.mp hcorners).1
    constructor
    · intro h a ha b hb hne
      exact (hmem a (Finset.mem_range.mp (hsubset ha)) b).mp (h.1 a ha b hb hne)
    · intro h
      exact ⟨fun a ha b hb hne => (hmem a (Finset.mem_range.mp (hsubset ha)) b).mpr (h a ha b hb hne),
        fun a _ => hdegree a⟩
  rw [hlisted]
  decide +kernel

end PackedGraph
