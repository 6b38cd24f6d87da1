import Mathlib.Data.List.Basic
import PackedGraph.Workers.Partition

/-!
# Partitions tile the nodes

The partitions of a node count follow each other without gap and without overlap, and the partition of a
node is found by one division.

Main statements: `flatMap_nodes_rangePartition` and `mem_nodes_iff_partitionIndex`.
-/

namespace PackedGraph

theorem le_ceilDiv_mul {total step : Nat} (h : 0 < step) : total ≤ ceilDiv total step * step := by
  rw [ceilDiv]
  have := Nat.div_add_mod' (total + step - 1) step
  have := Nat.mod_lt (total + step - 1) h
  omega

theorem ceilDiv_pos {total step : Nat} (htotal : 0 < total) (hstep : 0 < step) :
    0 < ceilDiv total step :=
  Nat.div_pos (by omega) hstep

theorem ceilDiv_le {total step : Nat} (hstep : 0 < step) : ceilDiv total step ≤ total := by
  rw [ceilDiv]
  rcases Nat.eq_zero_or_pos total with rfl | htotal
  · exact Nat.le_of_eq (Nat.div_eq_of_lt (by omega))
  · rw [Nat.div_le_iff_le_mul_add_pred hstep]
    have := Nat.le_mul_of_pos_left total hstep
    omega

/-- The number of a piece is below the number of pieces just in case the piece begins below the end. -/
theorem lt_ceilDiv_iff {total step index : Nat} (hstep : 0 < step) :
    index < ceilDiv total step ↔ index * step < total := by
  rw [ceilDiv, Nat.lt_div_iff_mul_lt hstep]
  omega

/-! ## Tiles -/

/-- The nodes of a tile. -/
theorem mem_nodes_tile {nodeCount length index node : Nat} (hlength : 0 < length) :
    node ∈ (Partition.mk (index * length) (min length (nodeCount - index * length))).nodes ↔
      node < nodeCount ∧ node / length = index := by
  rw [Partition.nodes, List.mem_map]
  simp only
  have := Nat.div_add_mod' node length
  have := Nat.mod_lt node hlength
  constructor
  · rintro ⟨offset, hoffset, rfl⟩
    rw [List.mem_range] at hoffset
    refine ⟨by omega, ?_⟩
    rw [Nat.mul_comm, Nat.mul_add_div hlength, Nat.div_eq_of_lt (by omega), Nat.add_zero]
  · rintro ⟨hnode, rfl⟩
    refine ⟨node % length, ?_, by omega⟩
    rw [List.mem_range]
    omega

/-- The first so many tiles hold the nodes in front of the next one. -/
theorem flatMap_nodes_take (nodeCount length count : Nat) :
    ((List.range count).map fun i =>
        (⟨i * length, min length (nodeCount - i * length)⟩ : Partition)).flatMap Partition.nodes =
      List.range (min (count * length) nodeCount) := by
  induction count with
  | zero => simp
  | succ count ih =>
    rw [List.range_succ, List.map_append, List.flatMap_append, ih, List.map_singleton,
      List.flatMap_singleton, Partition.nodes]
    simp only
    have hend : min ((count + 1) * length) nodeCount =
        min (count * length) nodeCount + min length (nodeCount - count * length) := by
      rw [Nat.succ_mul]
      omega
    rw [hend, List.range_add]
    by_cases hinside : count * length ≤ nodeCount
    · rw [Nat.min_eq_left hinside]
    · rw [show min length (nodeCount - count * length) = 0 by omega]
      rfl

theorem flatMap_nodes_tiles {nodeCount length : Nat} (hlength : 0 < length) :
    (tiles nodeCount length).flatMap Partition.nodes = List.range nodeCount := by
  rw [tiles, flatMap_nodes_take, Nat.min_eq_right (le_ceilDiv_mul hlength)]

/-! ## The partitions of a node count -/

theorem partitionCount_pos {nodeCount : Nat} (h : 0 < nodeCount) (concurrency : Nat) :
    0 < partitionCount nodeCount concurrency := by
  rw [partitionCount]
  omega

/-- The length of all partitions but the last. -/
def partitionLength (nodeCount concurrency : Nat) : Nat :=
  ceilDiv nodeCount (partitionCount nodeCount concurrency)

theorem partitionLength_pos {nodeCount : Nat} (h : 0 < nodeCount) (concurrency : Nat) :
    0 < partitionLength nodeCount concurrency :=
  ceilDiv_pos h (partitionCount_pos h concurrency)

theorem rangePartition_zero (concurrency : Nat) : rangePartition 0 concurrency = [] := by
  have hzero : ∀ length, ceilDiv 0 length = 0 := fun length => by
    rcases Nat.eq_zero_or_pos length with rfl | hlength
    · rfl
    · rw [ceilDiv, Nat.div_eq_of_lt (by omega)]
  rw [rangePartition, tiles, hzero]
  rfl

/-- The partitions hold every node once, in order. -/
theorem flatMap_nodes_rangePartition (nodeCount concurrency : Nat) :
    (rangePartition nodeCount concurrency).flatMap Partition.nodes = List.range nodeCount := by
  rcases Nat.eq_zero_or_pos nodeCount with rfl | hpos
  · rw [rangePartition_zero]
    rfl
  · exact flatMap_nodes_tiles (partitionLength_pos hpos concurrency)

theorem getElem_rangePartition {nodeCount concurrency index : Nat}
    (h : index < (rangePartition nodeCount concurrency).length) :
    (rangePartition nodeCount concurrency)[index] =
      ⟨index * partitionLength nodeCount concurrency,
        min (partitionLength nodeCount concurrency)
          (nodeCount - index * partitionLength nodeCount concurrency)⟩ := by
  simp [rangePartition, tiles, partitionLength]

theorem length_rangePartition (nodeCount concurrency : Nat) :
    (rangePartition nodeCount concurrency).length =
      ceilDiv nodeCount (partitionLength nodeCount concurrency) := by
  simp [rangePartition, tiles, partitionLength]

/-- The partition of a node is found by one division. -/
theorem partitionIndex?_rangePartition {nodeCount node : Nat} (h : node < nodeCount)
    (concurrency : Nat) :
    partitionIndex? (rangePartition nodeCount concurrency) node =
        some (node / partitionLength nodeCount concurrency) ∧
      node / partitionLength nodeCount concurrency < (rangePartition nodeCount concurrency).length := by
  have hpos : 0 < nodeCount := by omega
  have hlength := partitionLength_pos hpos concurrency
  have hle : partitionLength nodeCount concurrency ≤ nodeCount := ceilDiv_le (partitionCount_pos hpos _)
  have hindex : node / partitionLength nodeCount concurrency <
      (rangePartition nodeCount concurrency).length := by
    rw [length_rangePartition, lt_ceilDiv_iff hlength]
    exact Nat.lt_of_le_of_lt (Nat.div_mul_le_self _ _) h
  refine ⟨?_, hindex⟩
  have hzero := Nat.zero_lt_of_lt hindex
  have hfirst := getElem_rangePartition hzero
  rw [Nat.zero_mul, Nat.sub_zero, Nat.min_eq_left hle] at hfirst
  revert hindex hzero hfirst
  cases rangePartition nodeCount concurrency with
  | nil => exact fun _ hzero _ => absurd hzero (Nat.lt_irrefl 0)
  | cons first others =>
    intro hindex hzero hfirst
    rw [List.getElem_cons_zero] at hfirst
    rw [partitionIndex?]
    simp only [hfirst]
    rw [Nat.min_eq_left (Nat.le_sub_one_of_lt (hfirst ▸ hindex))]

/-- A node lies in the partition that is found for it, and in no other. -/
theorem mem_nodes_iff_partitionIndex {nodeCount concurrency index node : Nat}
    (h : index < (rangePartition nodeCount concurrency).length) :
    node ∈ (rangePartition nodeCount concurrency)[index].nodes ↔
      node < nodeCount ∧ partitionIndex? (rangePartition nodeCount concurrency) node = some index := by
  have hpos : 0 < nodeCount := by
    by_contra hzero
    rw [Nat.eq_zero_of_not_pos hzero, rangePartition_zero] at h
    exact absurd h (by simp)
  rw [getElem_rangePartition h, mem_nodes_tile (partitionLength_pos hpos concurrency)]
  refine and_congr_right fun hnode => ?_
  rw [(partitionIndex?_rangePartition hnode concurrency).1, Option.some.injEq]

end PackedGraph
