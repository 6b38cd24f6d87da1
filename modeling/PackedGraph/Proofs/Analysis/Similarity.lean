import Mathlib.Data.Set.Card
import PackedGraph.Proofs.Analysis.InverseIndex
import PackedGraph.Proofs.Analysis.Selection
import PackedGraph.Proofs.Topology.Meet
import PackedGraph.Proofs.Workers.Breakdown

/-!
# Node similarity

The candidates of a node are the sources of its targets, so they are the nodes that share a target with
it, whatever inverts the graph.  What is found at a node depends on the graph and the settings only, and
a run collects what is found at all nodes: so it does not depend on the order in which they are handed
out.

Main statement: `similarity_of_built`.
-/

namespace PackedGraph

variable {g : Graph} {s : SimilaritySettings}

/-- How many targets two nodes share. -/
def Graph.sharedCount (g : Graph) (u v : Nat) : Nat := ((g.targets u).toFinset ∩ (g.targets v).toFinset).card

namespace Similarity

/-! ## What is to be found -/

/-- Whether two nodes are compared: they are different, both have enough neighbours, and one of these is
shared. -/
def Comparable (g : Graph) (s : SimilaritySettings) (u v : Nat) : Prop :=
  u ≠ v ∧ (s.degreeCutoff ≤ g.degree u ∧ s.degreeCutoff ≤ g.degree v) ∧
    ∃ shared ∈ g.targets u, shared ∈ g.targets v

instance (g : Graph) (s : SimilaritySettings) (u v : Nat) : Decidable (Comparable g s u v) :=
  inferInstanceAs (Decidable (_ ∧ _ ∧ _))

/-- Two nodes with their score. -/
def pair (g : Graph) (s : SimilaritySettings) (u v : Nat) : ScoredPair :=
  ⟨u, v, s.metric.score (g.degree u) (g.degree v) (g.sharedCount u v)⟩

/-- Whether the score of two nodes that are compared is not dropped. -/
def Similar (g : Graph) (s : SimilaritySettings) (u v : Nat) : Prop :=
  Comparable g s u v ∧ s.cutoff ≤ (pair g s u v).score

/-- A list has the best so many of some pairs, best first. -/
def IsBest (bound : Bound) (among : ScoredPair → Prop) (entries : List ScoredPair) : Prop :=
  ∃ ranked : List ScoredPair, ranked.Pairwise (ScoredPair.Before bound.largest) ∧
    (∀ pair, pair ∈ ranked ↔ among pair) ∧ entries = ranked.take bound.capacity

/-- A result has compared the right pairs and kept the right ones. -/
structure Exact (g : Graph) (s : SimilaritySettings) (r : Similarity) : Prop where
  /-- The nodes with enough neighbours are compared with others. -/
  nodesCompared_eq : r.nodesCompared = {u | u < g.nodeCount ∧ s.degreeCutoff ≤ g.degree u}.ncard
  /-- The pairs that are to be compared are compared, in both orders. -/
  comparisons_eq : r.comparisons = {p : Nat × Nat | Comparable g s p.1 p.2}.ncard
  /-- The nodes that have partners ascend. -/
  ascending : (r.neighbors.map Partners.node).Pairwise (· < ·)
  /-- They are the nodes that are similar to some node. -/
  mem_iff : ∀ u, u ∈ r.neighbors.map Partners.node ↔ ∃ v, Similar g s u v
  /-- Each of them keeps the best of its pairs. -/
  isBest : ∀ partners ∈ r.neighbors, partners.kept.bound = s.perNode ∧
    IsBest s.perNode (fun p => ∃ v, Similar g s partners.node v ∧ p = pair g s partners.node v)
      partners.kept.entries
  /-- Nothing is selected over all nodes. -/
  overall_eq : r.overall = none
  /-- The run was not asked to stop. -/
  terminated_eq : r.terminated = false

/-! ## Candidates -/

/-- The candidates of a node are the other nodes that the index finds for its targets. -/
theorem mem_candidates (g : Graph) (index : InverseIndex) (u : Nat) : (candidates g index u).Pairwise (· < ·) ∧
    ∀ v, v ∈ candidates g index u ↔ u ≠ v ∧ ∃ shared ∈ g.targets u, v ∈ index.sourcesOf shared := by
  have hsorted : (((g.targets u).flatMap fun shared => (index.sourcesOf shared).filter (· != u)).mergeSort
      fun a b => decide (a ≤ b)).Pairwise (· ≤ ·) := by
    have := @List.pairwise_mergeSort Nat (fun a b => decide (a ≤ b)) (by simp; omega) (by simp; omega)
      ((g.targets u).flatMap fun shared => (index.sourcesOf shared).filter (· != u))
    simpa using this
  obtain ⟨hstrict, hmem⟩ := dedup_of_ascending hsorted
  refine ⟨hstrict, fun v => ?_⟩
  rw [candidates, hmem, (List.mergeSort_perm _ _).mem_iff, List.mem_flatMap]
  constructor
  · rintro ⟨shared, hshared, hv⟩
    obtain ⟨hsource, hne⟩ := List.mem_filter.mp hv
    exact ⟨Ne.symm (bne_iff_ne.mp hne), shared, hshared, hsource⟩
  · rintro ⟨hne, shared, hshared, hsource⟩
    exact ⟨shared, hshared, List.mem_filter.mpr ⟨hsource, bne_iff_ne.mpr (Ne.symm hne)⟩⟩

/-- They are the other nodes that share a target with it, whatever the index. -/
theorem candidates_spec {index : InverseIndex} (hindex : index.Inverts g) (u : Nat) :
    (candidates g index u).Pairwise (· < ·) ∧
      ∀ v, v ∈ candidates g index u ↔ u ≠ v ∧ ∃ shared ∈ g.targets u, shared ∈ g.targets v := by
  obtain ⟨hstrict, hmem⟩ := mem_candidates g index u
  refine ⟨hstrict, fun v => (hmem v).trans (and_congr_right fun _ => exists_congr fun shared => ?_)⟩
  exact and_congr_right fun hshared => hindex u shared hshared v

/-- The nodes that a node is compared with. -/
def comparables (g : Graph) (s : SimilaritySettings) (u : Nat) : List Nat :=
  g.nodeList.filter fun v => decide (Comparable g s u v)

theorem mem_comparables (hg : g.Built) {u v : Nat} : v ∈ comparables g s u ↔ Comparable g s u v := by
  rw [comparables, List.mem_filter, decide_eq_true_eq, Graph.nodeList, List.mem_range]
  constructor
  · exact And.right
  · intro h
    obtain ⟨shared, -, hv⟩ := h.2.2
    exact ⟨hg.source_lt hv, h⟩

/-- Ascending lists with the same members are equal. -/
theorem eq_of_ascending {xs ys : List Nat} (hxs : xs.Pairwise (· < ·)) (hys : ys.Pairwise (· < ·))
    (hmem : ∀ a, a ∈ xs ↔ a ∈ ys) : xs = ys := by
  refine List.Perm.eq_of_pairwise (fun a b _ _ hab hba => absurd hab (Nat.lt_asymm hba)) hxs hys ?_
  exact (List.perm_ext_iff_of_nodup (hxs.imp Nat.ne_of_lt) (hys.imp Nat.ne_of_lt)).mpr hmem

theorem compared_eq (hg : g.Built) {index : InverseIndex} (hindex : index.Inverts g) {u : Nat}
    (hdegree : s.degreeCutoff ≤ g.degree u) : compared g s index u = comparables g s u := by
  obtain ⟨hstrict, hmem⟩ := candidates_spec hindex u
  refine eq_of_ascending (hstrict.filter _) (List.pairwise_lt_range.filter _) fun v => ?_
  rw [mem_comparables hg, compared, List.mem_filter, hmem, decide_eq_true_eq, Comparable]
  tauto

/-! ## Scores -/

/-- Without parallel relationships, as many targets are met as are shared. -/
theorem length_bagInter (hg : g.Built) (hparallel : g.parallel = false) (u v : Nat) :
    ((g.targets u).bagInter (g.targets v)).length = g.sharedCount u v := by
  have hnodup : (g.targets u).Nodup := (hg.strict hparallel u).imp Nat.ne_of_lt
  exact length_bagInter_of_nodup (.inl hnodup)

theorem scoreOf_eq (hg : g.Built) (hparallel : g.parallel = false) (u v : Nat) :
    ({ first := u, second := v, score := scoreOf g s.metric u v } : ScoredPair) = pair g s u v := by
  have hshows : ∀ node, (g.cursor node).Shows (g.targets node) := fun node => hg.shows_rebind rfl node
  rw [pair, scoreOf, Cursor.sharedCount_of_shows (hshows u) (hshows v), length_bagInter hg hparallel]

theorem sharedCount_comm (g : Graph) (u v : Nat) : g.sharedCount u v = g.sharedCount v u := by
  rw [Graph.sharedCount, Graph.sharedCount, Finset.inter_comm]

/-- Being compared is mutual, and so are scores. -/
theorem comparable_comm {u v : Nat} (h : Comparable g s u v) : Comparable g s v u := by
  obtain ⟨hne, hdegrees, shared, hu, hv⟩ := h
  exact ⟨Ne.symm hne, hdegrees.symm, shared, hv, hu⟩

theorem score_comm (g : Graph) (s : SimilaritySettings) (u v : Nat) :
    (pair g s u v).score = (pair g s v u).score := by
  have hdenominator : ∀ left right shared, s.metric.denominator left right shared =
      s.metric.denominator right left shared := by
    intro left right shared
    cases s.metric with
    | jaccard => simp [SimilarityMetric.denominator, Nat.add_comm]
    | overlap => simp [SimilarityMetric.denominator, Nat.min_comm]
  simp only [pair, SimilarityMetric.score, sharedCount_comm g u v,
    hdenominator (g.degree u) (g.degree v)]

/-- The score of nodes that are compared is a number. -/
theorem packed_score (hg : g.Built) (hparallel : g.parallel = false) {u v : Nat} (h : Comparable g s u v) :
    Packed (pair g s u v).score := by
  have hdegree : ∀ node, (g.targets node).toFinset.card = g.degree node := by
    intro node
    have hnodup : (g.targets node).Nodup := (hg.strict hparallel node).imp Nat.ne_of_lt
    rw [List.toFinset_card_of_nodup hnodup, hg.degree_eq]
  obtain ⟨-, -, shared, hu, hv⟩ := h
  have hunion : ((g.targets u).toFinset ∪ (g.targets v).toFinset).card ≤ g.nodeCount := by
    refine (Finset.card_le_card fun target htarget => ?_).trans_eq (Finset.card_range g.nodeCount)
    rw [Finset.mem_union, List.mem_toFinset, List.mem_toFinset] at htarget
    rcases htarget with htarget | htarget
    · exact Finset.mem_range.mpr (hg.target_lt htarget)
    · exact Finset.mem_range.mpr (hg.target_lt htarget)
  have hsum := Finset.card_union_add_card_inter (g.targets u).toFinset (g.targets v).toFinset
  have hleft := Finset.card_le_card (@Finset.inter_subset_left _ _ (g.targets u).toFinset (g.targets v).toFinset)
  have hright := Finset.card_le_card (@Finset.inter_subset_right _ _ (g.targets u).toFinset (g.targets v).toFinset)
  have hwords : g.nodeCount ≤ 2 ^ 64 - 1 := hg.nodeCount_le hu
  rw [hdegree, hdegree] at hsum
  rw [hdegree] at hleft hright
  have hbounds : g.sharedCount u v ≤ s.metric.denominator (g.degree u) (g.degree v) (g.sharedCount u v) ∧
      s.metric.denominator (g.degree u) (g.degree v) (g.sharedCount u v) < 2 ^ 64 := by
    rw [Graph.sharedCount]
    cases s.metric with
    | jaccard =>
      simp only [SimilarityMetric.denominator]
      omega
    | overlap =>
      simp only [SimilarityMetric.denominator]
      omega
  rw [pair, SimilarityMetric.score]
  split
  · exact packed_zero.1
  · exact (quotient_le_one hbounds.1 (by omega) hbounds.2).1

/-! ## What is found at a node -/

/-- The pairs of a node whose scores are not dropped. -/
def offers (g : Graph) (s : SimilaritySettings) (u : Nat) : List ScoredPair :=
  ((comparables g s u).map (pair g s u)).filter fun p => decide (s.cutoff ≤ p.score)

/-- The selection among them. -/
def keptAt (g : Graph) (s : SimilaritySettings) (u : Nat) : Selection :=
  (Selection.new s.perNode).offerAll (offers g s u)

/-- The partners of a node, if there are any. -/
def partnersAt (g : Graph) (s : SimilaritySettings) (u : Nat) : List Partners :=
  if offers g s u = [] then [] else [⟨u, keptAt g s u⟩]

theorem mem_offers (hg : g.Built) {u : Nat} {p : ScoredPair} :
    p ∈ offers g s u ↔ ∃ v, Similar g s u v ∧ p = pair g s u v := by
  rw [offers, List.mem_filter, List.mem_map, decide_eq_true_eq]
  constructor
  · rintro ⟨⟨v, hv, rfl⟩, hcutoff⟩
    exact ⟨v, ⟨(mem_comparables hg).mp hv, hcutoff⟩, rfl⟩
  · rintro ⟨v, hsimilar, rfl⟩
    exact ⟨⟨v, (mem_comparables hg).mpr hsimilar.1, rfl⟩, hsimilar.2⟩

/-- What a node keeps are the best of its pairs. -/
theorem isBest_keptAt (hg : g.Built) (hparallel : g.parallel = false) (hcapacity : 0 < s.perNode.capacity)
    (u : Nat) :
    IsBest s.perNode (fun p => ∃ v, Similar g s u v ∧ p = pair g s u v) (keptAt g s u).entries := by
  have hpacked : ∀ p ∈ offers g s u, Packed p.score := by
    intro p hp
    obtain ⟨v, hsimilar, rfl⟩ := (mem_offers hg).mp hp
    exact packed_score hg hparallel hsimilar.1
  have horder : (offers g s u).Pairwise fun a b => a.second < b.second := by
    refine List.Pairwise.filter _ ?_
    rw [List.pairwise_map]
    exact List.pairwise_lt_range.filter _
  obtain ⟨ranked, hperm, hpairwise, hentries⟩ := Selection.entries_offerAll hcapacity hpacked horder
  refine ⟨ranked, hpairwise, fun p => ?_, hentries⟩
  rw [hperm.mem_iff, mem_offers hg]

theorem bound_offerAll (selection : Selection) (offered : List ScoredPair) :
    (selection.offerAll offered).bound = selection.bound := by
  induction offered generalizing selection with
  | nil => rfl
  | cons entry offered ih =>
    rw [Selection.offerAll, List.foldl_cons, ← Selection.offerAll, ih]
    simp only [Selection.offer]
    split
    · rfl
    · split
      · split
        · split <;> rfl
        · rfl
      · rfl

/-- Something is kept where something is offered. -/
theorem size_keptAt (hg : g.Built) (hparallel : g.parallel = false) (hcapacity : 0 < s.perNode.capacity)
    (u : Nat) : (keptAt g s u).size = 0 ↔ offers g s u = [] := by
  obtain ⟨ranked, -, hmem, hentries⟩ := isBest_keptAt hg hparallel hcapacity u
  have hsize : (keptAt g s u).size = (ranked.take s.perNode.capacity).length := by
    rw [← hentries, Selection.entries, List.length_map, Selection.size]
  rw [hsize, List.length_take]
  constructor
  · intro hzero
    have hranked : ranked = [] := List.length_eq_zero_iff.mp (by omega)
    refine List.eq_nil_iff_forall_not_mem.mpr fun p hp => ?_
    have := (hmem p).mpr ((mem_offers hg).mp hp)
    rw [hranked] at this
    exact List.not_mem_nil this
  · intro hnil
    have hranked : ranked = [] := List.eq_nil_iff_forall_not_mem.mpr fun p hp => by
      have := (mem_offers hg).mpr ((hmem p).mp hp)
      rw [hnil] at this
      exact List.not_mem_nil this
    rw [hranked]
    simp

/-- What a comparison adds to what a worker has found. -/
theorem compare_eq (hg : g.Built) (hparallel : g.parallel = false) (hcapacity : 0 < s.perNode.capacity)
    {index : InverseIndex} (hindex : index.Inverts g) (u : Nat) (own : Comparisons) :
    compare g s index u own =
      { neighbors := partnersAt g s u ++ own.neighbors
        count := own.count + (comparables g s u).length
        nodes := own.nodes + if s.degreeCutoff ≤ g.degree u then 1 else 0 } := by
  rw [compare]
  by_cases hdegree : s.degreeCutoff ≤ g.degree u
  · rw [if_neg (Nat.not_lt.mpr hdegree), if_pos hdegree, compared_eq hg hindex hdegree]
    simp only [scoreOf_eq hg hparallel]
    change Comparisons.mk (if (keptAt g s u).size = 0 then _ else ⟨u, keptAt g s u⟩ :: own.neighbors) _ _ = _
    rw [List.length_map, partnersAt]
    by_cases hnil : offers g s u = []
    · rw [if_pos ((size_keptAt hg hparallel hcapacity u).mpr hnil), if_pos hnil, List.nil_append]
    · rw [if_neg (fun hzero => hnil ((size_keptAt hg hparallel hcapacity u).mp hzero)), if_neg hnil]
      rfl
  · have hnone : comparables g s u = [] := List.filter_eq_nil_iff.mpr fun v _ hv =>
      hdegree (of_decide_eq_true hv).2.1.1
    rw [if_pos (Nat.lt_of_not_le hdegree), if_neg hdegree, partnersAt, offers, hnone]
    simp

/-! ## What a run collects -/

/-- What is found at all nodes. -/
def whole (g : Graph) (s : SimilaritySettings) : Similarity :=
  { neighbors := g.nodeList.flatMap (partnersAt g s)
    overall := none
    nodesCompared := (g.nodeList.map fun u => if s.degreeCutoff ≤ g.degree u then 1 else 0).sum
    comparisons := (g.nodeList.map fun u => (comparables g s u).length).sum
    terminated := false }

theorem mem_partnersAt {u : Nat} {p : Partners} :
    p ∈ partnersAt g s u ↔ p = ⟨u, keptAt g s u⟩ ∧ offers g s u ≠ [] := by
  rw [partnersAt]
  split <;> simp_all

/-- Partners of different nodes are listed under different nodes. -/
theorem ascending_whole (g : Graph) (s : SimilaritySettings) :
    (g.nodeList.flatMap (partnersAt g s)).Pairwise fun a b => a.node < b.node := by
  refine List.pairwise_flatMap.mpr ⟨fun u _ => ?_, ?_⟩
  · rw [partnersAt]
    split
    · exact List.Pairwise.nil
    · exact List.pairwise_singleton _ _
  · refine List.pairwise_lt_range.imp fun {u v} hlt a ha b hb => ?_
    rw [(mem_partnersAt.mp ha).1, (mem_partnersAt.mp hb).1]
    exact hlt

theorem coe_flatMap {α β : Type} (f : α → List β) (xs : List α) :
    (xs.flatMap f : Multiset β) = (xs.map fun x => (f x : Multiset β)).sum := by
  induction xs with
  | nil => rfl
  | cons x xs ih => rw [List.flatMap_cons, ← Multiset.coe_add, ih, List.map_cons, List.sum_cons]

/-- A result with what is selected over all nodes from what they keep, if anything is. -/
def withOverall (r : Similarity) (bound : Option Bound) : Similarity :=
  { r with overall := bound.map fun bound =>
      r.neighbors.foldl (fun selection partners => selection.merge partners.kept) (.new bound) }

/-- In whatever order and to whomever the nodes are handed out, what is found at all of them is collected,
and it is selected from that. -/
theorem ofTrace_eq_withOverall (hg : g.Built) (hparallel : g.parallel = false)
    (hcapacity : 0 < s.perNode.capacity) {index : InverseIndex} (hindex : index.Inverts g) {workers : Nat}
    {trace : List Visit} (htrace : HandsOut g.nodeCount workers trace) :
    ofTrace g s index workers trace false = (whole g s).withOverall s.overall := by
  have hworkers : ∀ v ∈ trace, v.worker < (Array.replicate workers ({} : Comparisons)).size := by
    simpa using htrace.worker_lt
  have hcompare := compare_eq hg hparallel hcapacity hindex
  have hnone : ∀ {M : Type} [AddCommMonoid M] (account : Comparisons → M), account {} = 0 →
      ((Array.replicate workers ({} : Comparisons)).toList.map account).sum = 0 := by
    intro M _ account hzero
    simp [hzero]
  have hnodes := htrace.nodes
  -- each of the three accounts is the sum of what is found at the visited nodes
  have hpartners := @sum_foldl_modify Comparisons (Multiset Partners) _ (compare g s index)
    (fun c => (c.neighbors : Multiset Partners)) (fun u => (partnersAt g s u : Multiset Partners))
    (by
      intro u own
      rw [hcompare, ← Multiset.coe_add, add_comm]) trace _ hworkers
  have hcounts := @sum_foldl_modify Comparisons Nat _ (compare g s index) Comparisons.count
    (fun u => (comparables g s u).length) (by
      intro u own
      rw [hcompare]) trace _ hworkers
  have hcompared := @sum_foldl_modify Comparisons Nat _ (compare g s index) Comparisons.nodes
    (fun u => if s.degreeCutoff ≤ g.degree u then 1 else 0) (by
      intro u own
      rw [hcompare]) trace _ hworkers
  rw [hnone _ rfl, zero_add] at hpartners hcounts hcompared
  rw [ofTrace]
  generalize (trace.foldl _ (Array.replicate workers ({} : Comparisons))).toList = own at *
  have hfound : (own.flatMap fun c => c.neighbors.reverse).Perm (g.nodeList.flatMap (partnersAt g s)) := by
    rw [← Multiset.coe_eq_coe, coe_flatMap]
    simp only [Multiset.coe_reverse]
    rw [hpartners, ← coe_flatMap, Multiset.coe_eq_coe]
    exact hnodes.flatMap_right _
  have hsorted : ((own.flatMap fun c => c.neighbors.reverse).mergeSort fun a b =>
      decide (a.node ≤ b.node)) = g.nodeList.flatMap (partnersAt g s) := by
    have hperm := (List.mergeSort_perm (own.flatMap fun c => c.neighbors.reverse) fun a b =>
      decide (a.node ≤ b.node)).trans hfound
    have hmem : ∀ p ∈ g.nodeList.flatMap (partnersAt g s), p = ⟨p.node, keptAt g s p.node⟩ := by
      intro p hp
      obtain ⟨u, -, hp⟩ := List.mem_flatMap.mp hp
      rw [(mem_partnersAt.mp hp).1]
    refine @List.Perm.eq_of_pairwise Partners (fun a b => a.node ≤ b.node) _ _ ?_ ?_ ?_ hperm
    · intro a b ha hb hab hba
      rw [hmem a (hperm.mem_iff.mp ha), hmem b hb, Nat.le_antisymm hab hba]
    · simpa using @List.pairwise_mergeSort Partners (fun a b => decide (a.node ≤ b.node))
        (by simp; omega) (by simp; omega) (own.flatMap fun c => c.neighbors.reverse)
    · exact (ascending_whole g s).imp Nat.le_of_lt
  simp only [hsorted, foldl_add_eq_sum, Nat.zero_add, hcounts, hcompared]
  rw [withOverall, whole]
  congr 1
  · exact (hnodes.map _).sum_eq
  · exact (hnodes.map _).sum_eq

/-- Where nothing is selected over all nodes, what is found at all of them is the result. -/
theorem ofTrace_eq (hg : g.Built) (hparallel : g.parallel = false) (hcapacity : 0 < s.perNode.capacity)
    (hoverall : s.overall = none) {index : InverseIndex} (hindex : index.Inverts g) {workers : Nat}
    {trace : List Visit} (htrace : HandsOut g.nodeCount workers trace) :
    ofTrace g s index workers trace false = whole g s := by
  rw [ofTrace_eq_withOverall hg hparallel hcapacity hindex htrace, hoverall]
  rfl

/-- The pairs that are compared, counted node by node. -/
theorem sum_length_comparables (hg : g.Built) :
    (g.nodeList.map fun u => (comparables g s u).length).sum =
      {p : Nat × Nat | Comparable g s p.1 p.2}.ncard := by
  have hset : {p : Nat × Nat | Comparable g s p.1 p.2} =
      ((Finset.range g.nodeCount ×ˢ Finset.range g.nodeCount).filter fun p => Comparable g s p.1 p.2) := by
    ext ⟨u, v⟩
    simp only [Set.mem_ofPred_eq, Finset.coe_filter, Finset.mem_product, Finset.mem_range]
    constructor
    · intro h
      obtain ⟨shared, hu, hv⟩ := h.2.2
      exact ⟨⟨hg.source_lt hu, hg.source_lt hv⟩, h⟩
    · exact And.right
  have hlength : ∀ u, (comparables g s u).length =
      ((Finset.range g.nodeCount).filter fun v => Comparable g s u v).card := by
    intro u
    have hnodup : (comparables g s u).Nodup := List.nodup_range.filter _
    rw [← List.toFinset_card_of_nodup hnodup]
    congr 1
    ext v
    simp [comparables, Graph.nodeList]
  rw [hset, Set.ncard_coe_finset, Finset.card_filter, Finset.sum_product]
  simp only [hlength, Finset.card_filter]
  rfl

/-- What is found at all nodes is exact. -/
theorem exact_whole (hg : g.Built) (hparallel : g.parallel = false) (hcapacity : 0 < s.perNode.capacity) :
    Exact g s (whole g s) := by
  refine ⟨?_, sum_length_comparables hg, ?_, ?_, ?_, rfl, rfl⟩
  · have hset : {u | u < g.nodeCount ∧ s.degreeCutoff ≤ g.degree u} =
        ((Finset.range g.nodeCount).filter fun u => s.degreeCutoff ≤ g.degree u) := by
      ext u
      simp
    rw [hset, Set.ncard_coe_finset, Finset.card_filter]
    rfl
  · rw [List.pairwise_map]
    exact ascending_whole g s
  · intro u
    rw [List.mem_map]
    constructor
    · rintro ⟨p, hp, rfl⟩
      obtain ⟨v, -, hp⟩ := List.mem_flatMap.mp hp
      obtain ⟨rfl, hoffers⟩ := mem_partnersAt.mp hp
      obtain ⟨first, hfirst⟩ := List.exists_mem_of_ne_nil _ hoffers
      obtain ⟨w, hsimilar, -⟩ := (mem_offers hg).mp hfirst
      exact ⟨w, hsimilar⟩
    · rintro ⟨v, hsimilar⟩
      obtain ⟨shared, hu, -⟩ := hsimilar.1.2.2
      refine ⟨⟨u, keptAt g s u⟩, List.mem_flatMap.mpr ⟨u, List.mem_range.mpr (hg.source_lt hu), ?_⟩, rfl⟩
      exact mem_partnersAt.mpr ⟨rfl, List.ne_nil_of_mem ((mem_offers hg).mpr ⟨v, hsimilar, rfl⟩)⟩
  · intro p hp
    obtain ⟨u, -, hp⟩ := List.mem_flatMap.mp hp
    obtain ⟨rfl, -⟩ := mem_partnersAt.mp hp
    exact ⟨bound_offerAll _ _, isBest_keptAt hg hparallel hcapacity u⟩

end Similarity

/-! ## Settings -/

theorem pos_of_checkBound {name : String} {bound : Option Nat} (h : checkBound name bound = .ok ()) {k : Nat}
    (hk : bound = some k) : 0 < k := by
  by_contra hzero
  obtain rfl : k = 0 := by omega
  subst hk
  exact absurd h (by simp [checkBound, checkPositive])

/-- What settings that are accepted have passed. -/
structure SimilaritySettings.Passed (s : SimilaritySettings) : Prop where
  /-- There is a worker. -/
  concurrency : 1 ≤ s.concurrency
  /-- Every selection that is asked for has an entry. -/
  topK : checkBound "top_k" s.topK = .ok ()
  /-- So has that from the other end. -/
  bottomK : checkBound "bottom_k" s.bottomK = .ok ()
  /-- So has that over all nodes. -/
  topN : checkBound "top_n" s.topN = .ok ()
  /-- So has that from its other end. -/
  bottomN : checkBound "bottom_n" s.bottomN = .ok ()
  /-- Nodes without neighbours are not compared. -/
  degreeCutoff : 1 ≤ s.degreeCutoff
  /-- A batch has a node. -/
  batchSize : 1 ≤ s.batchSize

theorem SimilaritySettings.passed_of_validate (h : s.validate = .ok ()) : s.Passed := by
  obtain ⟨⟨⟩, hconcurrency, h⟩ := ok_of_bind h
  obtain ⟨⟨⟩, -, h⟩ := ok_of_bind h
  obtain ⟨⟨⟩, -, h⟩ := ok_of_bind h
  obtain ⟨⟨⟩, htopK, h⟩ := ok_of_bind h
  obtain ⟨⟨⟩, hbottomK, h⟩ := ok_of_bind h
  obtain ⟨⟨⟩, htopN, h⟩ := ok_of_bind h
  obtain ⟨⟨⟩, hbottomN, h⟩ := ok_of_bind h
  by_cases hdegree : s.degreeCutoff = 0
  · rw [if_pos hdegree] at h
    cases h
  rw [if_neg hdegree] at h
  have hbatch : checkBound "batch_size" (some s.batchSize) = .ok () := by
    dsimp only at h
    split at h
    · cases h
    · exact h
  exact ⟨one_le_of_checkConcurrency hconcurrency, htopK, hbottomK, htopN, hbottomN, Nat.pos_of_ne_zero hdegree,
    pos_of_checkBound hbatch rfl⟩

/-- Settings that are accepted have a worker, and room for a partner. -/
theorem SimilaritySettings.of_validate (h : s.validate = .ok ()) :
    1 ≤ s.concurrency ∧ 0 < s.perNode.capacity := by
  have hpassed := passed_of_validate h
  refine ⟨hpassed.concurrency, ?_⟩
  rw [perNode]
  cases hb : s.bottomK with
  | some bottom => exact pos_of_checkBound hpassed.bottomK hb
  | none =>
    cases ht : s.topK with
    | some top => exact pos_of_checkBound hpassed.topK ht
    | none => decide

/-- Where they select over all nodes, there is room for a pair. -/
theorem SimilaritySettings.overall_pos (h : s.validate = .ok ()) {bound : Bound} (hbound : s.overall = some bound) :
    0 < bound.capacity := by
  have hpassed := passed_of_validate h
  rw [overall] at hbound
  cases ht : s.topN with
  | some top =>
    rw [ht] at hbound
    obtain rfl := Option.some.inj hbound
    exact pos_of_checkBound hpassed.topN ht
  | none =>
    cases hb : s.bottomN with
    | some bottom =>
      rw [ht, hb] at hbound
      obtain rfl := Option.some.inj hbound
      exact pos_of_checkBound hpassed.bottomN hb
    | none =>
      rw [ht, hb] at hbound
      exact absurd hbound (by simp)

/-! ## Room for what is kept -/

namespace Similarity

/-- There is room for the partners of every node that is compared with others: for as many as it may keep, or else
no node is compared. -/
def HasRoom (g : Graph) (s : SimilaritySettings) : Prop :=
  s.perNode.capacity * Selection.partBytes ≤ largestBlock ∨ ∀ u < g.nodeCount, g.degree u < s.degreeCutoff

instance (g : Graph) (s : SimilaritySettings) : Decidable (HasRoom g s) := inferInstanceAs (Decidable (_ ∨ _))

/-- Whether a worker gets past a node. -/
def fits (g : Graph) (s : SimilaritySettings) (u : Nat) : Bool :=
  decide (s.perNode.capacity * Selection.partBytes ≤ largestBlock ∨ g.degree u < s.degreeCutoff)

/-- Without room for the partners of a node, its worker breaks down. -/
theorem task_eq_breaking (g : Graph) (s : SimilaritySettings) :
    task g s none = Task.breaking (fits g s) (.text Fault.noRoom.message) := by
  funext before u
  rw [task, checkRoom, Selection.new?, reserve, Task.breaking, fits]
  by_cases hdegree : g.degree u < s.degreeCutoff
  · rw [if_pos hdegree, if_pos (decide_eq_true (.inr hdegree))]
    rfl
  rw [if_neg hdegree]
  by_cases hroom : s.perNode.capacity * Selection.partBytes ≤ largestBlock
  · rw [if_pos hroom, if_pos (decide_eq_true (.inl hroom))]
    rfl
  · rw [if_neg hroom, if_neg (by simp [hroom, hdegree])]
    rfl

theorem HasRoom.fits (hg : g.Built) (hvalid : s.validate = .ok ()) (h : HasRoom g s) (u : Nat) :
    fits g s u = true := by
  refine decide_eq_true (h.imp_right fun hall => ?_)
  by_cases hu : u < g.nodeCount
  · exact hall u hu
  · rw [hg.degree_eq, hg.targets_eq_nil (Nat.le_of_not_lt hu)]
    exact (SimilaritySettings.passed_of_validate hvalid).degreeCutoff

theorem exists_not_fits (h : ¬ HasRoom g s) : ∃ u < g.nodeCount, fits g s u = false := by
  rw [HasRoom, not_or] at h
  obtain ⟨hfull, hcompared⟩ := h
  push Not at hcompared
  obtain ⟨u, hu, hdegree⟩ := hcompared
  exact ⟨u, hu, decide_eq_false (not_or.mpr ⟨hfull, Nat.not_lt.mpr hdegree⟩)⟩

/-- The crew that compares the nodes, after steps of its workers in some order. -/
def comparing (g : Graph) (s : SimilaritySettings) (pool : Pool) (schedule : List Nat) : Crew :=
  (Crew.forBatches pool g.nodeCount s.batchSize false (.new "NodeSimilarity" g.nodeCount 10)).run (task g s none)
    schedule

/-- In whatever order the workers take their steps until all of them are back, they have gone through all nodes
if there is room, and fail if not. -/
theorem comparing_spec (hg : g.Built) (hvalid : s.validate = .ok ()) {pool : Pool}
    (hlimit : g.nodeCount + (pool.concurrency + 1) * max s.batchSize 1 ≤ counterLimit) {schedule : List Nat}
    (hfinished : (comparing g s pool schedule).finished = true) :
    if HasRoom g s then HandsOut g.nodeCount pool.concurrency (comparing g s pool schedule).visits.toList ∧
      ∃ results, (comparing g s pool schedule).outcome = .ok results
    else (comparing g s pool schedule).outcome = .error (.workerFailed Fault.noRoom.message) := by
  have hbatch := (SimilaritySettings.passed_of_validate hvalid).batchSize
  rw [Nat.max_eq_left hbatch] at hlimit
  rw [comparing, task_eq_breaking] at hfinished ⊢
  obtain ⟨hok, herror⟩ := Crew.outcome_of_run_breaking pool hbatch hlimit _ hfinished
  split
  · next hroom => exact hok (hroom.fits hg hvalid)
  · next hroom => exact herror (exists_not_fits hroom)

/-- **What the run that nobody stops returns:** what is found at all nodes and what is selected from that, as long as
there is room for both. -/
theorem compute_eq_ite (hg : g.Built) (hparallel : g.parallel = false) (hvalid : s.validate = .ok ())
    (hlimit : g.nodeCount + (s.concurrency + 1) * max s.batchSize 1 ≤ counterLimit) :
    compute g s none =
      if HasRoom g s then
        if ∀ bound ∈ s.overall, bound.capacity * Selection.partBytes ≤ largestBlock then
          .ok ((whole g s).withOverall s.overall)
        else .error .noRoom
      else .error (.workerFailed Fault.noRoom.message) := by
  obtain ⟨hconcurrency, hcapacity⟩ := SimilaritySettings.of_validate hvalid
  obtain ⟨index, processed, hbuild, hinverts⟩ := InverseIndex.exists_build hg ⟨s.concurrency, hconcurrency⟩
  have hpool : Pool.new? s.concurrency = .ok ⟨s.concurrency, hconcurrency⟩ := dif_pos hconcurrency
  have hsimple : checkSimple g = .ok () := by
    rw [checkSimple, hparallel]
    rfl
  have hlater : StopAfter.later none processed = none := rfl
  rw [compute, hvalid, hsimple, hpool]
  change (InverseIndex.build g ⟨s.concurrency, hconcurrency⟩ none).bind _ = _
  rw [hbuild]
  by_cases hroom : HasRoom g s
  · rw [if_pos hroom]
    obtain ⟨htrace, hstopped⟩ := Crew.handsOut_trace_batches ⟨s.concurrency, hconcurrency⟩ g.nodeCount
      s.batchSize (.new "NodeSimilarity" g.nodeCount 10) hlimit
    obtain ⟨results, houtcome⟩ := (@Crew.outcome_settle (StopAfter.task none) (fun _ _ => rfl) s.concurrency
      (.counter 0 (max s.batchSize 1) g.nodeCount) false (.new "NodeSimilarity" g.nodeCount 10)).1
    have hresult := ofTrace_eq_withOverall hg hparallel hcapacity hinverts htrace
    rw [Crew.trace] at hresult
    have hcrew : ((Crew.forBatches ⟨s.concurrency, hconcurrency⟩ g.nodeCount s.batchSize false
        (.new "NodeSimilarity" g.nodeCount 10)).begin none).settle (task g s none) =
        (Crew.forBatches ⟨s.concurrency, hconcurrency⟩ g.nodeCount s.batchSize false
          (.new "NodeSimilarity" g.nodeCount 10)).handOut none := by
      rw [task_eq_breaking, Crew.breaking_of_forall (hroom.fits hg hvalid)]
      rfl
    have houtcome' : ((Crew.forBatches ⟨s.concurrency, hconcurrency⟩ g.nodeCount s.batchSize false
        (.new "NodeSimilarity" g.nodeCount 10)).handOut none).outcome = .ok results := houtcome
    simp only [Except.bind, hlater, hcrew, houtcome', hstopped, hresult]
    cases hoverall : s.overall with
    | none =>
      rw [if_pos (by simp)]
      rfl
    | some bound =>
      simp only [Option.mem_some_iff, forall_eq', Option.mapM_some, Selection.new?, reserve]
      split
      · rfl
      · rfl
  · rw [if_neg hroom]
    have houtcome := @Crew.outcome_settle_breaking (fits g s) (.text Fault.noRoom.message) g.nodeCount s.batchSize
      ⟨s.concurrency, hconcurrency⟩ (.new "NodeSimilarity" g.nodeCount 10) hlimit (exists_not_fits hroom)
    rw [← task_eq_breaking] at houtcome
    have houtcome' : (((Crew.forBatches ⟨s.concurrency, hconcurrency⟩ g.nodeCount s.batchSize false
        (.new "NodeSimilarity" g.nodeCount 10)).begin none).settle (task g s none)).outcome =
        .error (.workerFailed Fault.noRoom.message) := houtcome
    simp only [Except.bind, hlater, houtcome']
    rfl

/-- Where there is room, that is returned. -/
theorem compute_eq_withOverall (hg : g.Built) (hparallel : g.parallel = false) (hvalid : s.validate = .ok ())
    (hlimit : g.nodeCount + (s.concurrency + 1) * max s.batchSize 1 ≤ counterLimit)
    (hroom : s.perNode.capacity * Selection.partBytes ≤ largestBlock)
    (hroomOverall : ∀ bound ∈ s.overall, bound.capacity * Selection.partBytes ≤ largestBlock) :
    compute g s none = .ok ((whole g s).withOverall s.overall) := by
  rw [compute_eq_ite hg hparallel hvalid hlimit, if_pos (.inl hroom), if_pos hroomOverall]

/-- Where nothing is selected over all nodes, it is what is found at them. -/
theorem compute_eq (hg : g.Built) (hparallel : g.parallel = false) (hvalid : s.validate = .ok ())
    (hoverall : s.overall = none)
    (hlimit : g.nodeCount + (s.concurrency + 1) * max s.batchSize 1 ≤ counterLimit)
    (hroom : s.perNode.capacity * Selection.partBytes ≤ largestBlock) :
    compute g s none = .ok (whole g s) := by
  rw [compute_eq_withOverall hg hparallel hvalid hlimit hroom (by simp [hoverall]), hoverall]
  rfl

end Similarity

/-! ## Shared targets -/

/-- Calls for nodes with shared targets, one of them in both directions. -/
def sharedWays : List Call :=
  [.add 0 2 none, .add 0 3 none, .add 1 2 none, .add 1 3 none, .add 4 3 none, .add 4 4 none, .add 3 0 none]

/-- Settings that store one relationship for every pair, as it comes. -/
def oneWay : RelationshipSettings := { concurrency := 2, aggregation := .single }

/-- The targets of the nodes of `sharedWays`. -/
def sharedTargets (node : Nat) : List Nat :=
  [[2, 3], [2, 3], [], [0], [3, 4]].getD node []

/-- Settings under which all that is compared is similar, and every node has room for one partner. -/
def sharedSettings : SimilaritySettings := { concurrency := 2, cutoff := 0, topK := some 1 }

/-- A graph with those targets, whose nodes are named by their dense ids. -/
theorem exists_numbered_sharedWays : ∃ g : Graph, g.Built ∧ g.nodes = .identity 5 ∧ g.parallel = false ∧
    ∀ u < 5, g.targets u = sharedTargets u := by
  obtain ⟨g, hg, hnodes, -, hparallel, hcounts⟩ := @Graph.exists_built_over (.identity 5) oneWay 0 sharedWays
    (IdMap.valid_identity (by decide)) (by decide) (by decide) (by decide)
  have hcount : g.nodeCount = 5 := congrArg IdMap.nodeCount hnodes
  replace hparallel := hparallel (by decide)
  have hmem : ∀ u < 5, ∀ v < 5,
      (0 < Graph.storedCount (.identity 5) oneWay sharedWays u v ↔ v ∈ sharedTargets u) := by decide
  have hbound : ∀ u < 5, ∀ v ∈ sharedTargets u, v < 5 := by decide
  refine ⟨g, hg, hnodes, hparallel, fun u hu => ?_⟩
  refine Similarity.eq_of_ascending (hg.strict hparallel u) ?_ fun v => ?_
  · revert u
    decide
  · by_cases hv : v < 5
    · rw [← List.count_pos_iff, hcounts u hu]
      exact hmem u hu v hv
    · exact ⟨fun h => absurd (hcount ▸ hg.target_lt h) hv, fun h => absurd (hbound u hu v h) hv⟩

/-- A graph with those targets. -/
theorem exists_sharedWays : ∃ g : Graph, g.Built ∧ g.nodeCount = 5 ∧ g.parallel = false ∧
    ∀ u < 5, g.targets u = sharedTargets u := by
  obtain ⟨g, hg, hnodes, hparallel, htargets⟩ := exists_numbered_sharedWays
  exact ⟨g, hg, congrArg IdMap.nodeCount hnodes, hparallel, htargets⟩

section

variable {g : Graph}

/-- Three of the nodes share targets pairwise. -/
theorem comparable_sharedWays (hg : g.Built) (hcount : g.nodeCount = 5)
    (htargets : ∀ u < 5, g.targets u = sharedTargets u) (u v : Nat) :
    Similarity.Comparable g sharedSettings u v ↔
      (u, v) ∈ ({(0, 1), (1, 0), (0, 4), (4, 0), (1, 4), (4, 1)} : Finset (Nat × Nat)) := by
  have hlisted : ∀ u < 5, ∀ v < 5, (u ≠ v ∧ (1 ≤ (sharedTargets u).length ∧ 1 ≤ (sharedTargets v).length) ∧
      (∃ shared ∈ sharedTargets u, shared ∈ sharedTargets v)) ↔
      (u, v) ∈ ({(0, 1), (1, 0), (0, 4), (4, 0), (1, 4), (4, 1)} : Finset (Nat × Nat)) := by decide
  by_cases hbelow : u < 5 ∧ v < 5
  · rw [← hlisted u hbelow.1 v hbelow.2, Similarity.Comparable, hg.degree_eq, hg.degree_eq, htargets u hbelow.1,
      htargets v hbelow.2]
    rfl
  · constructor
    · intro h
      obtain ⟨shared, hu, hv⟩ := h.2.2
      exact absurd ⟨hcount ▸ hg.source_lt hu, hcount ▸ hg.source_lt hv⟩ hbelow
    · intro h
      simp only [Finset.mem_insert, Finset.mem_singleton, Prod.mk.injEq] at h
      omega

/-- No score is below zero. -/
theorem similar_sharedWays (hg : g.Built) (hcount : g.nodeCount = 5)
    (htargets : ∀ u < 5, g.targets u = sharedTargets u) (u v : Nat) :
    Similarity.Similar g sharedSettings u v ↔ Similarity.Comparable g sharedSettings u v := by
  have hscores : ∀ u < 5, ∀ v < 5, (0 : Float) ≤ SimilarityMetric.score .jaccard (sharedTargets u).length
      (sharedTargets v).length ((sharedTargets u).toFinset ∩ (sharedTargets v).toFinset).card := by
    decide +kernel
  refine ⟨And.left, fun h => ⟨h, ?_⟩⟩
  obtain ⟨shared, hu, hv⟩ := h.2.2
  have hu := hcount ▸ hg.source_lt hu
  have hv := hcount ▸ hg.source_lt hv
  have hscore := hscores u hu v hv
  rw [← htargets u hu, ← htargets v hv, ← hg.degree_eq, ← hg.degree_eq] at hscore
  exact hscore

/-- All nodes but one have targets. -/
theorem degree_sharedWays (hg : g.Built) (hcount : g.nodeCount = 5)
    (htargets : ∀ u < 5, g.targets u = sharedTargets u) :
    {u | u < g.nodeCount ∧ sharedSettings.degreeCutoff ≤ g.degree u} = (({0, 1, 3, 4} : Finset Nat) : Set Nat) := by
  have hlisted : ∀ u < 5, (1 ≤ (sharedTargets u).length ↔ u ∈ ({0, 1, 3, 4} : Finset Nat)) := by decide
  have hbound : ∀ u ∈ ({0, 1, 3, 4} : Finset Nat), u < 5 := by decide
  ext u
  rw [Set.mem_ofPred_eq, Finset.mem_coe, hcount, hg.degree_eq]
  constructor
  · rintro ⟨hu, hdegree⟩
    rw [htargets u hu] at hdegree
    exact (hlisted u hu).mp hdegree
  · intro hmem
    have hu := hbound u hmem
    rw [htargets u hu]
    exact ⟨hu, (hlisted u hu).mpr hmem⟩

/-- Three of the nodes have partners. -/
theorem nodes_sharedWays (hg : g.Built) (hcount : g.nodeCount = 5)
    (htargets : ∀ u < 5, g.targets u = sharedTargets u) {result : Similarity}
    (hexact : Similarity.Exact g sharedSettings result) : result.neighbors.map Partners.node = [0, 1, 4] := by
  refine Similarity.eq_of_ascending hexact.ascending (by decide) fun u => ?_
  rw [hexact.mem_iff]
  simp only [similar_sharedWays hg hcount htargets, comparable_sharedWays hg hcount htargets, Finset.mem_insert,
    Finset.mem_singleton, Prod.mk.injEq, List.mem_cons, List.not_mem_nil, or_false]
  constructor
  · rintro ⟨v, h⟩
    omega
  · rintro (rfl | rfl | rfl)
    · exact ⟨1, by simp⟩
    · exact ⟨0, by simp⟩
    · exact ⟨0, by simp⟩

end

/-! ## The result -/

end PackedGraph
