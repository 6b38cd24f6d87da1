import Mathlib.Data.UInt
import PackedGraph.Proofs.Workers.Partition

/-!
# The loop that cuts the nodes makes the partitions

After so many turns the loop has cut off so many of the partitions, and stands at the first node behind
them.  No sum or difference leaves the range of a word on the way, because every node that is reached is at
most the node count, which is a word.

Main statements: `Cutting.cut?_cutAfter` for one turn, `cutInWords?_eq` for the loop, and
`partitions_tile_nodes`.
-/

namespace PackedGraph

/-! ## Lengths in words -/

theorem toNat_ceilDivWords {total step : UInt64} (hstep : 0 < step.toNat) :
    (ceilDivWords total step).toNat = ceilDiv total.toNat step.toNat := by
  have hdiv := Nat.div_add_mod' total.toNat step.toNat
  have hlt := Nat.mod_lt total.toNat hstep
  have htotal := total.toNat_lt
  symm
  rw [ceilDivWords, ceilDiv]
  by_cases hrest : total % step = 0
  · have hzero : total.toNat % step.toNat = 0 := by
      rw [← UInt64.toNat_mod, hrest]
      rfl
    rw [if_pos hrest, UInt64.toNat_div]
    refine Nat.div_eq_of_lt_le (by omega) ?_
    rw [Nat.add_mul]
    omega
  · have hpos : total.toNat % step.toNat ≠ 0 := by
      rw [← UInt64.toNat_mod]
      exact fun hzero => hrest (UInt64.toNat_inj.mp hzero)
    -- a rest is below the step, so the step is at least two and the quotient has a successor
    have hquotient : total.toNat / step.toNat * 2 ≤ total.toNat :=
      (Nat.mul_le_mul_left _ (show 2 ≤ step.toNat by omega)).trans (Nat.div_mul_le_self _ _)
    rw [if_neg hrest, UInt64.toNat_add, UInt64.toNat_div, show (1 : UInt64).toNat = 1 from rfl,
      Nat.mod_eq_of_lt (by omega)]
    refine Nat.div_eq_of_lt_le ?_ ?_
    · rw [Nat.add_mul]
      omega
    · rw [Nat.add_mul, Nat.add_mul]
      omega

theorem toNat_lengthInWords {nodeCount : UInt64} (h : 0 < nodeCount.toNat) (concurrency : UInt64) :
    (lengthInWords nodeCount concurrency).toNat = partitionLength nodeCount.toNat concurrency.toNat := by
  have hlimit : (UInt64.ofNat maxPartitionSize).toNat = maxPartitionSize := rfl
  have hcount : (max (min (max concurrency 1) nodeCount)
      (ceilDivWords nodeCount (.ofNat maxPartitionSize))).toNat =
        partitionCount nodeCount.toNat concurrency.toNat := by
    rw [UInt64.toNat_max, UInt64.toNat_min, UInt64.toNat_max, toNat_ceilDivWords (by decide), hlimit,
      partitionCount]
    rfl
  rw [lengthInWords, toNat_ceilDivWords (by rw [hcount]; exact partitionCount_pos h _), hcount, partitionLength]

/-! ## The loop -/

namespace Cutting

/-- What has been cut off after so many turns. -/
def cutAfter (nodeCount length : UInt64) (turns : Nat) : Cutting :=
  ⟨.ofNat (min (turns * length.toNat) nodeCount.toNat),
    ((tiles nodeCount.toNat length.toNat).take turns).toArray⟩

variable {nodeCount length : UInt64} {turns : Nat}

theorem toNat_start_cutAfter (nodeCount length : UInt64) (turns : Nat) :
    (cutAfter nodeCount length turns).start.toNat = min (turns * length.toNat) nodeCount.toNat := by
  have := nodeCount.toNat_lt
  exact UInt64.toNat_ofNat_of_lt' (by rw [UInt64.size]; omega)

/-- There are nodes behind the partitions as long as there are partitions to cut off. -/
theorem start_lt_iff (hlength : 0 < length.toNat) :
    (cutAfter nodeCount length turns).start < nodeCount ↔
      turns < (tiles nodeCount.toNat length.toNat).length := by
  rw [UInt64.lt_iff_toNat_lt, toNat_start_cutAfter, tiles, List.length_map, List.length_range,
    lt_ceilDiv_iff hlength]
  omega

theorem take_tiles_succ (h : turns < (tiles nodeCount.toNat length.toNat).length) :
    (tiles nodeCount.toNat length.toNat).take (turns + 1) =
      (tiles nodeCount.toNat length.toNat).take turns ++
        [⟨turns * length.toNat, min length.toNat (nodeCount.toNat - turns * length.toNat)⟩] := by
  rw [List.take_add_one, List.getElem?_eq_getElem h]
  simp [tiles]

/-- One turn cuts off the next partition, and nothing leaves the range of a word. -/
theorem cut?_cutAfter (hlength : 0 < length.toNat) (h : turns < (tiles nodeCount.toNat length.toNat).length) :
    (cutAfter nodeCount length turns).cut? nodeCount length = some (cutAfter nodeCount length (turns + 1)) := by
  have hbound := nodeCount.toNat_lt
  have hle : (cutAfter nodeCount length turns).start ≤ nodeCount :=
    UInt64.le_of_lt ((start_lt_iff hlength).mpr h)
  have hnode : turns * length.toNat < nodeCount.toNat := by
    rw [tiles, List.length_map, List.length_range] at h
    exact (lt_ceilDiv_iff hlength).mp h
  have hstart := toNat_start_cutAfter nodeCount length turns
  rw [Nat.min_eq_left hnode.le] at hstart
  have hnext := toNat_start_cutAfter nodeCount length (turns + 1)
  rw [Nat.succ_mul] at hnext
  generalize hhere : (cutAfter nodeCount length turns).start = start at hle hstart
  have hcount : (min length (nodeCount - start)).toNat =
      min length.toNat (nodeCount.toNat - turns * length.toNat) := by
    rw [UInt64.toNat_min, UInt64.toNat_sub_of_le _ _ hle, hstart]
  have hdifference : differenceOfWords? nodeCount start = some (nodeCount - start) := if_pos hle
  have hsum : sumOfWords? start (min length (nodeCount - start)) =
      some (cutAfter nodeCount length (turns + 1)).start := by
    rw [sumOfWords?, if_pos (by rw [hstart, hcount, UInt64.size]; omega)]
    refine congrArg some (UInt64.toNat_inj.mp ?_)
    rw [UInt64.toNat_add, hstart, hcount, hnext]
    omega
  rw [cut?, hhere, hdifference, Option.bind_some]
  simp only [hsum, Option.map_some, hstart, hcount]
  rw [cutAfter, cutAfter, take_tiles_succ h]
  simp

/-- The loop goes on until all partitions are cut off. -/
theorem run?_cutAfter (hlength : 0 < length.toNat) (more : Nat) :
    ∀ {turns : Nat}, turns ≤ (tiles nodeCount.toNat length.toNat).length →
      run? nodeCount length more (cutAfter nodeCount length turns) =
        some (cutAfter nodeCount length (min (turns + more) (tiles nodeCount.toNat length.toNat).length)) := by
  induction more with
  | zero =>
    intro turns hturns
    rw [run?, Nat.add_zero, Nat.min_eq_left hturns]
  | succ more ih =>
    intro turns hturns
    rw [run?]
    rcases Nat.lt_or_eq_of_le hturns with hlt | heq
    · rw [if_pos ((start_lt_iff hlength).mpr hlt), cut?_cutAfter hlength hlt, Option.bind_some, ih hlt,
        Nat.succ_add_eq_add_succ]
    · rw [if_neg (fun hstart => absurd ((start_lt_iff hlength).mp hstart) (by omega)),
        Nat.min_eq_right (by omega), heq]

end Cutting

/-- The loop makes the partitions, in as many turns as there are partitions. -/
theorem cutInWords?_eq (nodeCount concurrency : UInt64) (turns : Nat) :
    cutInWords? nodeCount concurrency turns =
      if (rangePartition nodeCount.toNat concurrency.toNat).length ≤ turns then
        some (rangePartition nodeCount.toNat concurrency.toNat) else none := by
  rw [cutInWords?]
  by_cases hzero : nodeCount = 0
  · subst hzero
    rw [if_pos rfl, show (0 : UInt64).toNat = 0 from rfl, rangePartition_zero, List.length_nil,
      if_pos (Nat.zero_le turns)]
  · have hpos : 0 < nodeCount.toNat :=
      Nat.pos_of_ne_zero fun h => hzero (UInt64.toNat_inj.mp h)
    have hlength := toNat_lengthInWords hpos concurrency
    have htiles : rangePartition nodeCount.toNat concurrency.toNat =
        tiles nodeCount.toNat (lengthInWords nodeCount concurrency).toNat := by
      rw [hlength]
      rfl
    have hlengthPos : 0 < (lengthInWords nodeCount concurrency).toNat := by
      rw [hlength]
      exact partitionLength_pos hpos _
    have hstart : ({} : Cutting) = .cutAfter nodeCount (lengthInWords nodeCount concurrency) 0 := by
      rw [Cutting.cutAfter, Nat.zero_mul, Nat.zero_min, List.take_zero]
      rfl
    rw [if_neg hzero, hstart, Cutting.run?_cutAfter hlengthPos turns (Nat.zero_le _), Option.bind_some,
      Nat.zero_add, ← htiles]
    by_cases hturns : (rangePartition nodeCount.toNat concurrency.toNat).length ≤ turns
    · rw [if_pos hturns, Nat.min_eq_right hturns, if_neg, Cutting.cutAfter, ← htiles, List.take_length]
      rw [Cutting.start_lt_iff hlengthPos, ← htiles]
      exact Nat.lt_irrefl _
    · rw [if_neg hturns, Nat.min_eq_left (by omega), if_pos]
      rw [Cutting.start_lt_iff hlengthPos, ← htiles]
      omega

/-! ## Tiling -/

theorem rangePartition?_eq (nodeCount concurrency : Nat) :
    rangePartition? nodeCount concurrency =
      if partitionCount nodeCount concurrency * partitionBytes ≤ largestBlock then
        .ok (rangePartition nodeCount concurrency) else .error .noRoom := by
  rw [rangePartition?, reserve]
  split <;> rfl

/-- So many partitions are asked for that none is too long. -/
theorem partitionLength_le {nodeCount : Nat} (h : 0 < nodeCount) (concurrency : Nat) :
    partitionLength nodeCount concurrency ≤ maxPartitionSize := by
  have hcount := partitionCount_pos h concurrency
  by_contra hlong
  have hlt := (lt_ceilDiv_iff hcount).mp (not_le.mp hlong)
  have hcover : nodeCount ≤ ceilDiv nodeCount maxPartitionSize * maxPartitionSize := le_ceilDiv_mul (by decide)
  have hmany : ceilDiv nodeCount maxPartitionSize ≤ partitionCount nodeCount concurrency := le_max_right _ _
  have := Nat.mul_le_mul_right maxPartitionSize hmany
  rw [Nat.mul_comm] at hlt
  omega

/-- No more partitions are made than are asked for. -/
theorem length_rangePartition_le (nodeCount concurrency : Nat) :
    (rangePartition nodeCount concurrency).length ≤ partitionCount nodeCount concurrency := by
  rcases Nat.eq_zero_or_pos nodeCount with rfl | hpos
  · rw [rangePartition_zero]
    exact Nat.zero_le _
  · rw [length_rangePartition]
    by_contra hmore
    have hlt := (lt_ceilDiv_iff (partitionLength_pos hpos concurrency)).mp (not_le.mp hmore)
    have hcover : nodeCount ≤ partitionLength nodeCount concurrency * partitionCount nodeCount concurrency :=
      le_ceilDiv_mul (partitionCount_pos hpos concurrency)
    rw [Nat.mul_comm] at hlt
    omega

theorem Partition.contains_iff {p : Partition} {node : Nat} :
    p.contains node = true ↔ p.start ≤ node ∧ node < p.start + p.count := by
  rw [Partition.contains, Partition.stop, Bool.and_eq_true, decide_eq_true_iff, decide_eq_true_iff]

theorem Partition.contains_iff_mem_nodes {p : Partition} {node : Nat} :
    p.contains node = true ↔ node ∈ p.nodes := by
  rw [contains_iff, nodes, List.mem_map]
  constructor
  · rintro ⟨hstart, hstop⟩
    exact ⟨node - p.start, List.mem_range.mpr (by omega), by omega⟩
  · rintro ⟨offset, hoffset, rfl⟩
    have := List.mem_range.mp hoffset
    omega

/-- Partitions that tile the nodes below a count, made for a number of workers. -/
structure TileNodes (partitions : List Partition) (nodeCount concurrency : Nat) : Prop where
  /-- There are partitions as soon as there are nodes. -/
  ne_nil_iff : partitions ≠ [] ↔ 0 < nodeCount
  /-- The first begins at the first node. -/
  start_eq : ∀ h : 0 < partitions.length, partitions[0].start = 0
  /-- Every other begins where the one before it ends. -/
  follows : ∀ (index : Nat) (h : index + 1 < partitions.length),
    partitions[index].stop = partitions[index + 1].start
  /-- The last ends at the node count. -/
  stop_eq : ∀ h : 0 < partitions.length, partitions[partitions.length - 1].stop = nodeCount
  /-- Each holds a node, and none holds too many. -/
  count_bounds : ∀ p ∈ partitions, 0 < p.count ∧ p.count ≤ maxPartitionSize
  /-- All are of one length but the last, which may be shorter. -/
  same_count : ∃ length, (∀ p ∈ partitions, p.count ≤ length) ∧
    ∀ (index : Nat) (h : index + 1 < partitions.length), partitions[index].count = length
  /-- There are no more than there are workers and nodes, unless they would be too long. -/
  length_le : partitions.length ≤
    max (min (max concurrency 1) nodeCount) (ceilDiv nodeCount maxPartitionSize)
  /-- Every node is found in the partition that contains it, and no other contains it. -/
  found : ∀ node < nodeCount, ∃ (index : Nat) (p : Partition), partitionIndex? partitions node = some index ∧
    partitions[index]? = some p ∧ p.contains node = true ∧
    ∀ (other : Nat) (q : Partition), partitions[other]? = some q → q.contains node = true → other = index

theorem tileNodes_rangePartition (nodeCount concurrency : Nat) :
    TileNodes (rangePartition nodeCount concurrency) nodeCount concurrency := by
  rcases Nat.eq_zero_or_pos nodeCount with rfl | hpos
  · rw [rangePartition_zero]
    exact ⟨by simp, by simp, by simp, by simp, by simp, ⟨0, by simp⟩, Nat.zero_le _, by simp⟩
  have hlength := partitionLength_pos hpos concurrency
  have hbegins : ∀ index, index < (rangePartition nodeCount concurrency).length ↔
      index * partitionLength nodeCount concurrency < nodeCount := fun index => by
    rw [length_rangePartition, lt_ceilDiv_iff hlength]
  have hsome := (hbegins 0).mpr (by omega)
  constructor
  case ne_nil_iff => exact iff_of_true (List.ne_nil_of_length_pos hsome) hpos
  case start_eq =>
    intro h
    rw [getElem_rangePartition h, Nat.zero_mul]
  case follows =>
    intro index h
    have hnext := (hbegins (index + 1)).mp h
    rw [getElem_rangePartition h, getElem_rangePartition (Nat.lt_of_succ_lt h), Partition.stop]
    rw [Nat.succ_mul] at hnext ⊢
    simp only
    omega
  case stop_eq =>
    intro h
    have hlast := (hbegins _).mp (Nat.sub_lt hsome Nat.one_pos)
    have hend := mt (hbegins (rangePartition nodeCount concurrency).length).mpr (Nat.lt_irrefl _)
    obtain ⟨before, hbefore⟩ := Nat.exists_eq_succ_of_ne_zero hsome.ne'
    rw [hbefore, Nat.succ_mul] at hend
    rw [hbefore, Nat.succ_sub_one] at hlast
    rw [getElem_rangePartition, Partition.stop]
    simp only [hbefore, Nat.succ_sub_one]
    omega
  case count_bounds =>
    intro p hp
    obtain ⟨index, hindex, rfl⟩ := List.getElem_of_mem hp
    have := (hbegins index).mp hindex
    have := partitionLength_le hpos concurrency
    rw [getElem_rangePartition hindex]
    simp only
    omega
  case same_count =>
    refine ⟨partitionLength nodeCount concurrency, fun p hp => ?_, fun index h => ?_⟩
    · obtain ⟨index, hindex, rfl⟩ := List.getElem_of_mem hp
      rw [getElem_rangePartition hindex]
      exact min_le_left _ _
    · have hnext := (hbegins (index + 1)).mp h
      rw [Nat.succ_mul] at hnext
      rw [getElem_rangePartition (Nat.lt_of_succ_lt h)]
      exact min_eq_left (by omega)
  case length_le => exact length_rangePartition_le nodeCount concurrency
  case found =>
    intro node hnode
    obtain ⟨hfound, hindex⟩ := partitionIndex?_rangePartition hnode concurrency
    refine ⟨_, _, hfound, List.getElem?_eq_getElem hindex, ?_, fun other q hq hcontains => ?_⟩
    · rw [Partition.contains_iff_mem_nodes, mem_nodes_iff_partitionIndex hindex]
      exact ⟨hnode, hfound⟩
    · obtain ⟨hother, rfl⟩ := List.getElem?_eq_some_iff.mp hq
      rw [Partition.contains_iff_mem_nodes, mem_nodes_iff_partitionIndex hother, hfound] at hcontains
      exact (Option.some.inj hcontains.2).symm

/-- **Partitions tile the nodes.**  For every node count and every number of workers that are words, the loop
ends without leaving the range of a word, in as many turns as it makes partitions; they tile the nodes, are
no more than are asked for, and every node is found in the only one that contains it.  They are returned
just in case there is room for as many as are asked for. -/
theorem partitions_tile_nodes (nodeCount concurrency : UInt64) :
    (∀ turns, cutInWords? nodeCount concurrency turns =
      if (rangePartition nodeCount.toNat concurrency.toNat).length ≤ turns then
        some (rangePartition nodeCount.toNat concurrency.toNat) else none) ∧
    TileNodes (rangePartition nodeCount.toNat concurrency.toNat) nodeCount.toNat concurrency.toNat ∧
    rangePartition? nodeCount.toNat concurrency.toNat =
      if partitionCount nodeCount.toNat concurrency.toNat * partitionBytes ≤ largestBlock then
        .ok (rangePartition nodeCount.toNat concurrency.toNat) else .error .noRoom :=
  ⟨cutInWords?_eq nodeCount concurrency, tileNodes_rangePartition _ _, rangePartition?_eq _ _⟩

/-- There is no room for the partitions when `2 ^ 59` workers share as many nodes. -/
theorem no_room_for_so_many_partitions :
    ¬ ∃ partitions, rangePartition? 576460752303423488 576460752303423488 = .ok partitions := by
  rintro ⟨partitions, h⟩
  rw [rangePartition?_eq, if_neg (by decide)] at h
  cases h

end PackedGraph
