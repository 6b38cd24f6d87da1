import PackedGraph.Proofs.Analysis.Merging
import PackedGraph.Proofs.Analysis.Nodes
import PackedGraph.Proofs.Analysis.OverallSelection

/-!
# No pair is kept twice

What a selection keeps are some of the entries that it was offered, none of them more often.  A node is compared
with each of its candidates once and never with itself, so its partners are different from each other and from it.
Of different nodes the pairs begin differently.  So a run in which no node is processed twice keeps no pair of
nodes twice, neither node by node nor over all nodes: whatever the scores are and whatever the index finds, also when
the run is stopped.

Main statements: `Similarity.perm_neighbors` and `Similarity.nodup_ends_pairs`.
-/

namespace PackedGraph

/-- The two nodes of a pair. -/
def ScoredPair.ends (p : ScoredPair) : Nat × Nat := (p.first, p.second)

/-- The best entries are some of those that were offered, none of them more often. -/
theorem subperm_best (bound : Bound) (offered : List ScoredPair) : (best bound offered).Subperm offered :=
  (List.take_sublist _ _).subperm.trans
    ((List.mergeSort_perm _ _).subperm.trans (List.filter_sublist).subperm)

/-- What is distinct of a list is distinct of some of its entries. -/
theorem nodup_map_of_subperm {α β : Type} {f : α → β} {xs ys : List α} (h : xs.Subperm ys)
    (hys : (ys.map f).Nodup) : (xs.map f).Nodup := by
  obtain ⟨zs, hperm, hsublist⟩ := h
  exact (hperm.map f).nodup_iff.mp (hys.sublist (hsublist.map f))

namespace Similarity

variable {g : Graph} {s : SimilaritySettings} {index : InverseIndex} {workers : Nat} {trace : List Visit}

/-! ## What a comparison finds -/

/-- What a comparison finds at a node: the partners of the node, if it has any. -/
def found (g : Graph) (s : SimilaritySettings) (index : InverseIndex) (node : Nat) : List Partners :=
  (compare g s index node {}).neighbors

/-- What a worker has found before makes no difference. -/
theorem neighbors_compare (g : Graph) (s : SimilaritySettings) (index : InverseIndex) (node : Nat)
    (own : Comparisons) : (compare g s index node own).neighbors = found g s index node ++ own.neighbors := by
  rw [found, compare, compare]
  split
  · rfl
  · dsimp only
    split <;> rfl

/-- A node is found once at most, with pairs that lead from it to different other nodes. -/
theorem mem_found {node : Nat} {partners : Partners} (h : partners ∈ found g s index node) :
    found g s index node = [partners] ∧ partners.node = node ∧
      (partners.kept.entries.map ScoredPair.ends).Nodup ∧
      ∀ pair ∈ partners.kept.entries, pair.first = node ∧ pair.second ≠ node := by
  unfold found compare at h ⊢
  split at h
  · exact absurd h List.not_mem_nil
  dsimp only at h ⊢
  split at h
  · exact absurd h List.not_mem_nil
  next hdegree hsome =>
  obtain rfl := List.mem_singleton.mp h
  rw [if_neg hdegree]
  dsimp only
  rw [if_neg hsome, Selection.entries_offerAll_eq_best]
  obtain ⟨hascending, hmem⟩ := mem_candidates g index node
  refine ⟨rfl, rfl, nodup_map_of_subperm ((subperm_best _ _).trans (List.filter_sublist).subperm) ?_,
    fun pair hpair => ?_⟩
  · rw [List.map_map]
    exact List.Nodup.map (Prod.mk_right_injective node) ((hascending.filter _).imp Nat.ne_of_lt)
  · have hoffered := (List.mem_filter.mp ((subperm_best _ _).subset hpair)).1
    obtain ⟨candidate, hcandidate, rfl⟩ := List.mem_map.mp hoffered
    exact ⟨rfl, (((hmem candidate).mp (List.mem_filter.mp hcandidate).1).1).symm⟩

/-! ## What a run collects -/

/-- A run collects what is found at the nodes of its trace. -/
theorem perm_neighbors (hworkers : ∀ v ∈ trace, v.worker < workers) (terminated : Bool) :
    (ofTrace g s index workers trace terminated).neighbors.Perm
      ((trace.map Visit.node).flatMap (found g s index)) := by
  have hsize : ∀ v ∈ trace, v.worker < (Array.replicate workers ({} : Comparisons)).size := by
    simpa using hworkers
  have hfound := @sum_foldl_modify Comparisons (Multiset Partners) _ (compare g s index)
    (fun c => (c.neighbors : Multiset Partners)) (fun node => (found g s index node : Multiset Partners))
    (by
      intro node own
      rw [neighbors_compare, ← Multiset.coe_add, add_comm]) trace _ hsize
  have hnone : ((Array.replicate workers ({} : Comparisons)).toList.map
      fun c => (c.neighbors : Multiset Partners)).sum = 0 := by simp
  rw [hnone, zero_add] at hfound
  refine (List.mergeSort_perm _ _).trans ?_
  rw [← Multiset.coe_eq_coe, coe_flatMap]
  simp only [Multiset.coe_reverse]
  rw [hfound, ← coe_flatMap]

/-- Along distinct nodes no pair is kept twice, and none joins a node to itself. -/
theorem nodup_ends_kept (hworkers : ∀ v ∈ trace, v.worker < workers) (hdistinct : (trace.map Visit.node).Nodup)
    (terminated : Bool) :
    ((ofTrace g s index workers trace terminated).keptPairs.map ScoredPair.ends).Nodup ∧
      ∀ pair ∈ (ofTrace g s index workers trace terminated).keptPairs, pair.second ≠ pair.first := by
  have hperm : (ofTrace g s index workers trace terminated).keptPairs.Perm
      ((trace.map Visit.node).flatMap fun node =>
        (found g s index node).flatMap fun partners => partners.kept.entries) := by
    rw [← List.flatMap_assoc]
    exact (perm_neighbors hworkers terminated).flatMap_right _
  have hfirst : ∀ node, ∀ pair ∈ (found g s index node).flatMap fun partners => partners.kept.entries,
      pair.first = node ∧ pair.second ≠ node := by
    intro node pair hpair
    obtain ⟨partners, hpartners, hmem⟩ := List.mem_flatMap.mp hpair
    exact (mem_found hpartners).2.2.2 pair hmem
  constructor
  · rw [(hperm.map _).nodup_iff, List.map_flatMap, List.nodup_flatMap]
    constructor
    · intro node _
      cases hfound : found g s index node with
      | nil => exact List.nodup_nil
      | cons partners others =>
        have hmem : partners ∈ found g s index node := hfound ▸ List.mem_cons_self
        obtain ⟨hsingle, -, hnodup, -⟩ := mem_found hmem
        rw [← hfound, hsingle, List.flatMap_singleton]
        exact hnodup
    · -- the pairs of different nodes begin differently
      refine hdistinct.imp fun {a b} hne ends ha hb => hne ?_
      obtain ⟨pair, hpair, rfl⟩ := List.mem_map.mp ha
      obtain ⟨pair', hpair', heq⟩ := List.mem_map.mp hb
      rw [← (hfirst a pair hpair).1, ← (hfirst b pair' hpair').1]
      exact (congrArg Prod.fst heq).symm
  · intro pair hpair
    obtain ⟨node, -, hmem⟩ := List.mem_flatMap.mp (hperm.mem_iff.mp hpair)
    obtain ⟨hfirst, hsecond⟩ := hfirst node pair hmem
    rwa [hfirst]

/-- The pairs over all nodes are some of those that nodes have kept, none of them more often. -/
theorem subperm_pairs (g : Graph) (s : SimilaritySettings) (index : InverseIndex) (workers : Nat)
    (trace : List Visit) (terminated : Bool) :
    (ofTrace g s index workers trace terminated).pairs.Subperm
      (ofTrace g s index workers trace terminated).keptPairs := by
  unfold pairs
  split
  · next selection hselection =>
    obtain ⟨bound, -, rfl⟩ := Option.map_eq_some_iff.mp hselection
    rw [foldl_merge, Selection.entries_offerAll_eq_best]
    exact subperm_best _ _
  · exact List.Subperm.refl _

/-- Along distinct nodes no pair is in the result twice, and none joins a node to itself. -/
theorem nodup_ends_pairs (hworkers : ∀ v ∈ trace, v.worker < workers)
    (hdistinct : (trace.map Visit.node).Nodup) (terminated : Bool) :
    ((ofTrace g s index workers trace terminated).pairs.map ScoredPair.ends).Nodup ∧
      ∀ pair ∈ (ofTrace g s index workers trace terminated).pairs, pair.second ≠ pair.first := by
  have hsubperm := subperm_pairs g s index workers trace terminated
  obtain ⟨hnodup, hdifferent⟩ := @nodup_ends_kept g s index workers trace hworkers hdistinct terminated
  exact ⟨nodup_map_of_subperm hsubperm hnodup, fun pair hpair => hdifferent pair (hsubperm.subset hpair)⟩

/-- The number of pairs is that of the entries of the selections. -/
theorem length_pairs (r : Similarity) : r.pairs.length = r.pairCount := by
  have hsize : ∀ selection : Selection, selection.entries.length = selection.size :=
    fun selection => List.length_map _
  unfold pairs pairCount
  split
  · exact hsize _
  · rw [List.length_flatMap, List.sum_eq_foldl, List.foldl_map]
    simp only [hsize]

end Similarity

end PackedGraph
