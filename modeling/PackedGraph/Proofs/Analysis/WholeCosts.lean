import PackedGraph.Proofs.Analysis.Betweenness
import PackedGraph.Proofs.Numeric.Sums

/-!
# Whole weights

Small whole numbers are doubles, so weights that are whole numbers add up exactly as long as their sums are
small.  A path that visits no node twice follows at most one relationship of every node.  So it is enough that
the largest weights of all nodes together are small.

Main statement: `WholeWeights.addsUp`.
-/

namespace PackedGraph

/-- All weights are positive whole numbers, those of a node not above its largest, and these are small together. -/
structure WholeWeights (relationships : Nat → List (Nat × Float)) (nodeCount : Nat) (largest : Nat → Nat) :
    Prop where
  /-- Only nodes have relationships. -/
  source_lt : ∀ u, ∀ a ∈ relationships u, u < nodeCount
  /-- Their weights are positive whole numbers. -/
  whole : ∀ u, ∀ a ∈ relationships u, ∃ n : Nat, 0 < n ∧ n ≤ largest u ∧ value a.2 = n
  /-- The largest ones of all nodes together are small. -/
  sum_lt : ∑ u ∈ Finset.range nodeCount, largest u < 2 ^ 53

/-- The cost of a path that visits no node twice, its nodes being given from the last to the first, is a whole
number and not above the sum of the largest weights of all its nodes but the last. -/
structure WholeCost (nodeCount : Nat) (largest : Nat → Nat) (path : List Nat) (c : Float) : Prop where
  /-- No node is visited twice. -/
  nodup : path.Nodup
  /-- A relationship of every node but the last has been followed. -/
  lt_of_mem : ∀ u ∈ path.tail, u < nodeCount
  /-- The cost is a number, -/
  finite : c.isFinite = true
  /-- a whole one. -/
  whole : ∃ n : Nat, value c = n ∧ n ≤ ∑ u ∈ path.tail.toFinset, largest u

namespace WholeWeights

variable {relationships : Nat → List (Nat × Float)} {nodeCount source u v : Nat} {largest : Nat → Nat}
  {nodes : List Nat} {c w : Float}

/-- A path that becomes longer by one relationship costs its weight more. -/
theorem step (h : WholeWeights relationships nodeCount largest) (hc : WholeCost nodeCount largest (u :: nodes) c)
    (hw : (v, w) ∈ relationships u) (hv : v ∉ u :: nodes) :
    value (c + w) = value c + value w ∧ WholeCost nodeCount largest (v :: u :: nodes) (c + w) := by
  obtain ⟨n, hn, hle⟩ := hc.whole
  obtain ⟨m, hm, hmle, hmvalue⟩ := h.whole u _ hw
  have hu : u ∉ nodes := (List.nodup_cons.mp hc.nodup).1
  have hlt : ∀ x ∈ u :: nodes, x < nodeCount := List.forall_mem_cons.mpr ⟨h.source_lt u _ hw, hc.lt_of_mem⟩
  have hsum : n + m ≤ ∑ x ∈ (u :: nodes).toFinset, largest x := by
    rw [List.toFinset_cons, Finset.sum_insert (mt List.mem_toFinset.mp hu), Nat.add_comm]
    exact Nat.add_le_add hmle hle
  have hsmall : n + m < 2 ^ 53 := by
    refine (hsum.trans (Finset.sum_le_sum_of_subset fun x hx => ?_)).trans_lt h.sum_lt
    exact Finset.mem_range.mpr (hlt x (List.mem_toFinset.mp hx))
  -- the sum of two small whole numbers is a double
  obtain ⟨hz, hzvalue⟩ := value_of_whole (Nat.add_pos_right n hm) hsmall
  have hcast : value (natToFloat (n + m)) = value c + value w := by
    rw [hzvalue, hn, hmvalue, Nat.cast_add]
  have hwpos : 0 < value w := hmvalue ▸ Nat.cast_pos.mpr hm
  obtain ⟨hfinite, hvalue⟩ := value_add_of_value hc.finite (hn ▸ Nat.cast_nonneg n)
    (isFinite_of_value_ne_zero hwpos.ne') hwpos.le hz hcast
  refine ⟨hvalue, List.nodup_cons.mpr ⟨hv, hc.nodup⟩, hlt, hfinite, n + m, ?_, hsum⟩
  rw [hvalue, hn, hmvalue, Nat.cast_add]

theorem wholeCost (h : WholeWeights relationships nodeCount largest) {path : List Nat}
    (hc : Costs relationships source path c) : WholeCost nodeCount largest path c := by
  induction hc with
  | start =>
    exact ⟨List.nodup_singleton source, fun u hu => absurd hu List.not_mem_nil, packed_zero.1.isFinite, 0,
      packed_zero.2.trans Nat.cast_zero.symm, Nat.zero_le _⟩
  | step _ hw hv ih => exact (h.step ih hw hv).2

/-- **Whole weights add up exactly**, from every source. -/
theorem addsUp (h : WholeWeights relationships nodeCount largest) (source : Nat) :
    AddsUp doubles relationships source := by
  constructor
  case positive =>
    intro u v w hw
    obtain ⟨n, hn, -, hvalue⟩ := h.whole u _ hw
    exact (Nat.cast_pos.mpr hn).trans_eq hvalue.symm
  case add =>
    intro u v w nodes c hc hw hv
    obtain ⟨hvalue, hcost⟩ := h.step (h.wholeCost hc) hw hv
    exact ⟨hcost.finite, hvalue⟩

end WholeWeights

end PackedGraph
