import PackedGraph.Proofs.Analysis.Dependencies

/-!
# The outcome of a search

What a complete search leaves behind, told without the search: which nodes are settled and in which order, how
far they are, how many shortest paths lead to them, and which nodes stand in front of them.  All of it is in
terms of the paths from the source.

Main statement: `Search.Complete.outcome`.
-/

namespace PackedGraph

/-- Tight relationships are those that lead as far as their length says. -/
theorem tightCount_eq_countP (ways : Ways) (d : Nat → ℚ) (u v : Nat) :
    tightCount ways d u v = (ways u).countP fun a => decide (a.1 = v ∧ d u + a.2 = d v) := by
  rw [tightCount, List.count]
  refine List.countP_congr fun a _ => ?_
  rw [beq_iff_eq, decide_eq_true_iff, Prod.ext_iff, eq_sub_iff_add_eq']

namespace Search

variable {κ ρ : Type} [PathCost κ]

/-- A search has settled all nodes that can be reached and counted all shortest paths to them; `d` is what it
says about distances. -/
structure Outcome (ways : Ways) (source : Nat) (d : Nat → ℚ) (s : Search κ ρ) : Prop where
  /-- The nodes that can be reached are settled, and no others, -/
  mem_settled_iff : ∀ v, v ∈ s.settled ↔ ways.Reaches source v
  /-- each of them once. -/
  nodup : s.settled.Nodup
  /-- They are as far from the source as the search says. -/
  isDistance : ∀ v, ways.Reaches source v → ways.IsDistance source v (d v)
  /-- No node has been settled before one that is nearer, -/
  sorted : s.settled.reverse.Pairwise fun u v => d u ≤ d v
  /-- nor before a node in front of it. -/
  earlier : ∀ before v after, s.settled.reverse = before ++ v :: after → ∀ u ∈ s.predecessorsOf v, u ∈ before
  /-- Only finitely many paths are shortest ones. -/
  finite_shortest : ∀ v, (ways.shortest source v).Finite
  /-- They are counted up to the limit; none leads to a node that cannot be reached. -/
  pathsTo_eq : ∀ v, s.pathsTo v = min (ways.shortest source v).ncard pathLimit
  /-- A node stands in front of another once for every relationship that leads just as far. -/
  count_predecessors : ∀ u v, ways.Reaches source u → ways.Reaches source v →
    (s.predecessorsOf v).count u = (ways u).countP fun a => decide (a.1 = v ∧ d u + a.2 = d v)
  /-- Only nodes that can be reached stand in front of others, or have nodes in front of them. -/
  reaches_of_mem : ∀ v, ∀ u ∈ s.predecessorsOf v, ways.Reaches source u ∧ ways.Reaches source v
  /-- Nothing is noted about other nodes. -/
  untouched : ∀ v, ¬ ways.Reaches source v → s.Untouched v

variable [Reckoning ρ] {ways : Ways} {source nodeCount : Nat} {withCosts : Bool} {d : Nat → ℚ} {s : Search κ ρ}

/-- **A complete search** has that outcome. -/
theorem Complete.outcome (h : s.Complete nodeCount withCosts ways source d) : s.Outcome ways source d := by
  have hfound := h.found
  have hdistances := hfound.distances
  have hsettled : ∀ v, v ∈ s.settled ↔ ways.Reaches source v := fun v => by
    rw [hdistances.reaches_iff, List.mem_toFinset]
  have hcount : ∀ v, ways.Reaches source v → ∀ u, (s.predecessorsOf v).count u =
      if u ∈ s.settled then (ways u).countP fun a => decide (a.1 = v ∧ d u + a.2 = d v) else 0 := by
    intro v hv u
    rw [hfound.count_predecessors v ((hsettled v).mpr hv), tightCount_eq_countP]
  constructor
  case mem_settled_iff => exact hsettled
  case nodup => exact hfound.nodup
  case isDistance => exact fun v hv => hdistances.isDistance_iff.mpr ⟨hdistances.reaches_iff.mp hv, rfl⟩
  case sorted => exact List.pairwise_reverse.mpr hfound.sorted
  case earlier =>
    intro before v after hsplit u hu
    have hsplit : s.settled = after.reverse ++ v :: before.reverse := by
      rw [← List.reverse_reverse s.settled, hsplit]
      simp
    exact List.mem_reverse.mp (h.orderly.earlier _ v _ hsplit u hu)
  case finite_shortest => exact hdistances.finite_shortest
  case pathsTo_eq =>
    intro v
    by_cases hv : v ∈ s.settled
    · rw [hfound.pathsTo v hv, hdistances.shortest_eq (List.mem_toFinset.mpr hv)]
    · rw [(hfound.untouched v hv).pathsTo, hdistances.shortest_eq_empty (mt List.mem_toFinset.mp hv),
        Set.ncard_empty, Nat.zero_min]
  case count_predecessors =>
    intro u v hu hv
    rw [hcount v hv, if_pos ((hsettled u).mpr hu)]
  case reaches_of_mem =>
    intro v u hu
    by_cases hv : v ∈ s.settled
    · have hv := (hsettled v).mp hv
      have hpositive := List.count_pos_iff.mpr hu
      rw [hcount v hv] at hpositive
      split at hpositive
      · rename_i hmem
        exact ⟨(hsettled u).mp hmem, hv⟩
      · exact absurd hpositive (Nat.lt_irrefl 0)
    · rw [(hfound.untouched v hv).predecessorsOf] at hu
      exact absurd hu List.not_mem_nil
  case untouched => exact fun v hv => hfound.untouched v (mt (hsettled v).mp hv)

end Search

end PackedGraph
