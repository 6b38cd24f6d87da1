import PackedGraph.Proofs.Ingest.Build
import PackedGraph.Proofs.Topology.Footprint

/-!
# Estimates and the bytes of what is built

Each worker packs on its own, so what is built has the pages of as many packers as there are partitions
with a relationship.

Main statement: `estimate_encloses_produced`.
-/

namespace PackedGraph

/-! ## Rows as runs -/

/-- The runs of some rows. -/
def runsOf (rows : List (List (Nat × Float))) : List (List UInt64) := rows.map wordsOf

theorem PackedPartition.Represents.pages_eq {p : PackedPartition} {rows : List (List (Nat × Float))}
    (h : p.Represents rows) : p.compressor.finish.toList = Compressor.pagesOf (runsOf rows) := by
  rw [h.compressor_eq, Compressor.pagesOf, runsOf]

theorem PackedPartition.Represents.ascends {p : PackedPartition} {rows : List (List (Nat × Float))}
    (h : p.Represents rows) : ∀ run ∈ runsOf rows, Varint.Ascends run :=
  fun run hrun => (h.packs.ascending run hrun).ascends

/-- A row has as many targets as entries. -/
theorem PackedPartition.Represents.targetsOf_eq {p : PackedPartition} {rows : List (List (Nat × Float))}
    (h : p.Represents rows) : Compressor.targetsOf (runsOf rows) = (rows.map List.length).sum := by
  rw [Compressor.targetsOf, runsOf, List.map_map]
  congr 1
  refine List.map_congr_left fun row hrow => ?_
  rw [Function.comp_apply, (h.packs.ascending _ (List.mem_map_of_mem hrow)).keptCount_eq, wordsOf,
    List.length_map, List.length_map]

/-- Pages of partitions that are put behind each other. -/
theorem PackedNodes.pages_foldl_append (packed : List PackedPartition) (all : PackedNodes) :
    (packed.foldl PackedNodes.append all).pages.toList =
      all.pages.toList ++ packed.flatMap fun p => p.compressor.finish.toList := by
  induction packed generalizing all with
  | nil => simp
  | cons p packed ih =>
    rw [List.foldl_cons, ih, append, Array.toList_append, List.flatMap_cons, List.append_assoc]

/-- Partitions that are put behind each other have been packed by their packers. -/
theorem PackedNodes.packedBy_foldl_append {packed : List PackedPartition}
    {rowss : List (List (List (Nat × Float)))}
    (h : List.Forall₂ PackedPartition.Represents packed rowss) (s : RelationshipSettings) :
    ((packed.foldl PackedNodes.append .empty).relationships s).adjacency.PackedBy (rowss.map runsOf) := by
  have hall : (packed.foldl PackedNodes.append .empty).Represents rowss.flatten :=
    PackedNodes.represents_empty.foldl_append h
  refine ⟨fun runs hruns => ?_, ?_, ?_⟩
  · obtain ⟨rows, hmem, rfl⟩ := List.mem_map.mp hruns
    obtain ⟨index, hindex, rfl⟩ := List.getElem_of_mem hmem
    exact (h.get (h.length_eq ▸ hindex) hindex).ascends
  · change (packed.foldl PackedNodes.append .empty).pages.toList = _
    rw [PackedNodes.pages_foldl_append, List.flatMap_map]
    clear hall
    induction h with
    | nil => rfl
    | cons hfirst _ ih =>
      rw [List.flatMap_cons, List.flatMap_cons, hfirst.pages_eq, ← ih]
      rfl
  · rw [hall.relationshipCount_eq]
    clear hall
    induction h with
    | nil => rfl
    | cons hfirst _ ih =>
      rw [List.flatten_cons, List.map_append, List.sum_append, List.map_cons, List.map_cons,
        List.sum_cons, ← ih, hfirst.targetsOf_eq]

/-- Rows between nodes below `2 ^ 63` have no wide targets. -/
theorem wideOf_runsOf_eq_zero {rows : List (List (Nat × Float))}
    (h : ∀ row ∈ rows, ∀ target ∈ row.map Prod.fst, target < 9223372036854775808) :
    Compressor.wideOf (runsOf rows) = 0 := by
  rw [Compressor.wideOf, runsOf, List.map_map]
  apply List.sum_eq_zero
  intro wide hwide
  obtain ⟨row, hrow, rfl⟩ := List.mem_map.mp hwide
  rw [Function.comp_apply, Varint.wideCount, List.countP_eq_zero]
  intro word hword
  obtain ⟨target, htarget, rfl⟩ := List.mem_map.mp (List.mem_filter.mp hword).1
  have hlt := h row hrow target htarget
  rw [decide_eq_true_eq, UInt64.toNat_ofNat_of_lt' (Nat.lt_trans hlt (by decide))]
  omega

/-! ## Builds -/

namespace Intake

variable {nodes : IdMap} {s : RelationshipSettings} {t : Intake} {l : Ledger}

/-- The row of a node tells its degree. -/
theorem KeepsLedger.degree_eq (h : KeepsLedger nodes s t l) (hnodes : nodes.Valid)
    (hdense : AllBelow nodes.nodeCount l.arrived) {r : Relationships} (hbuild : t.build = .ok r)
    {node : Nat} (hnode : node < nodes.nodeCount) {row : List (Nat × Float)}
    (hrow : s.aggregation.MakesRow l.arrived node row) : r.adjacency.degree node = row.length := by
  obtain ⟨all, rows, hrepresents, rfl, -, hrows⟩ := h.exists_rows hnodes hdense hbuild
  obtain ⟨found, hfound, hmakes, -⟩ := hrows node hnode
  have hsame : found = row := eq_of_weightsTo hmakes.ascending hrow.ascending fun target => by
    rw [hmakes.weights, hrow.weights]
  rw [hrepresents.degree_eq hfound, hsame]

/-- The relationships of a partition's nodes. -/
def relationshipsOf (a : Adjacency) (partition : Partition) : Nat := (partition.nodes.map a.degree).sum

/-- What is built has been packed by the workers, each of which has packed the rows of its nodes. -/
theorem KeepsLedger.packedBy_build (h : KeepsLedger nodes s t l) (hnodes : nodes.Valid)
    (hdense : AllBelow nodes.nodeCount l.arrived) {r : Relationships} (hbuild : t.build = .ok r) :
    ∃ packs, r.adjacency.PackedBy packs ∧
      packs.map Compressor.targetsOf = t.partitions.map (relationshipsOf r.adjacency) ∧
      (nodes.nodeCount ≤ 9223372036854775808 → ∀ runs ∈ packs, Compressor.wideOf runs = 0) := by
  have hdegree := @degree_eq _ _ _ _ h hnodes hdense _ hbuild
  obtain ⟨packed, hpacked, rfl⟩ := (build_eq_ok_iff (one_le_concurrency_of_build hbuild) r).mp hbuild
  obtain ⟨rowss, hrows, hrepresents⟩ := h.rows_of_workers hnodes hdense hpacked
  refine ⟨rowss.map runsOf, PackedNodes.packedBy_foldl_append hrepresents _, ?_, fun hsmall runs hruns => ?_⟩
  · refine List.ext_getElem (by simp [hrows.length_eq]) fun worker hleft hright => ?_
    rw [List.length_map, List.length_map] at hleft
    rw [List.length_map] at hright
    have hown := hrows.get hright hleft
    have htargets := (hrepresents.get (hrepresents.length_eq ▸ hleft) hleft).targetsOf_eq
    simp only [List.get_eq_getElem] at hown htargets
    simp only [List.getElem_map]
    rw [htargets, relationshipsOf]
    congr 1
    refine List.ext_getElem (by simp [hown.length_eq]) fun place hrow hnode => ?_
    rw [List.length_map] at hrow hnode
    have hmakes := hown.get hnode hrow
    have hlt := (h.mem_nodes_iff hright).mp (List.getElem_mem hnode)
    simp only [List.get_eq_getElem] at hmakes
    rw [List.getElem_map, List.getElem_map, hdegree hlt.1 hmakes]
  · obtain ⟨rows, hmem, rfl⟩ := List.mem_map.mp hruns
    refine wideOf_runsOf_eq_zero fun row hrow target htarget => ?_
    obtain ⟨worker, hworker, rfl⟩ := List.getElem_of_mem hmem
    obtain ⟨place, hplace, rfl⟩ := List.getElem_of_mem hrow
    have hown := hrows.get (hrows.length_eq ▸ hworker) hworker
    simp only [List.get_eq_getElem] at hown
    have hmakes := hown.get (hown.length_eq ▸ hplace) hplace
    exact Nat.lt_of_lt_of_le (hmakes.target_lt (fun r hr => (hdense r hr).2) target htarget) hsmall

end Intake

/-! ## Everything that is produced -/

/-- An adjacency that can be produced, with the number of packers that have written something and the
number of targets that may take ten bytes. -/
inductive Adjacency.Produced : Adjacency → Nat → Nat → Prop
  /-- From ascending lists, which all go through one packer. -/
  | ofSortedLists {lists : List (List UInt64)} (ascends : ∀ list ∈ lists, Varint.Ascends list) :
    Produced (.ofSortedLists lists) 1 (lists.map Varint.wideCount).sum
  /-- From calls on any number of batches, where every partition with a relationship has a packer. -/
  | ofBuild {nodes : IdMap} {s : RelationshipSettings} {batches : Nat} {calls : List Call}
    {r : Relationships} (valid : nodes.Valid) (small : nodes.nodeCount ≤ 9223372036854775808)
    (named : ∀ call ∈ calls, call.NamesBatch batches)
    (built : ((Intake.new nodes s batches).serveAll calls).close.build = .ok r) :
    Produced r.adjacency ((rangePartition nodes.nodeCount (max s.concurrency 1)).countP
      fun partition => decide (0 < Intake.relationshipsOf r.adjacency partition)) 0

/-- What is produced has been packed by so many packers, with so many wide targets. -/
theorem Adjacency.Produced.exists_packs {a : Adjacency} {packers wide : Nat} (h : a.Produced packers wide) :
    ∃ packs, a.PackedBy packs ∧ packersOf packs ≤ packers ∧
      (packs.map Compressor.wideOf).sum = wide ∧
      (wide = 0 → ∀ runs ∈ packs, Compressor.wideOf runs = 0) := by
  cases h with
  | ofSortedLists ascends =>
    refine ⟨_, packedBy_ofSortedLists ascends, List.countP_le_length, by simp [Compressor.wideOf],
      fun hnone runs hruns => ?_⟩
    rw [List.mem_singleton.mp hruns]
    exact hnone
  | @ofBuild nodes s batches calls r valid small named built =>
    have hledger := Intake.keepsLedger_close nodes s batches calls
    obtain ⟨packs, hpacked, htargets, hwide⟩ :=
      hledger.packedBy_build valid (allBelow_arrivals valid named) built
    refine ⟨packs, hpacked, ?_, ?_, fun _ => hwide small⟩
    · have hcount := congrArg (List.countP fun targets => decide (0 < targets)) htargets
      rw [List.countP_map, List.countP_map, hledger.partitions_eq] at hcount
      exact Nat.le_of_eq hcount
    · apply List.sum_eq_zero
      intro wide hmem
      obtain ⟨runs, hruns, rfl⟩ := List.mem_map.mp hmem
      exact hwide small runs hruns

/-- **Where the estimate encloses the bytes.**  Whatever adjacency is produced: its bytes are not below the
estimate if no run is longer than a page.  They exceed it by one entry of the page table at most for every
packer but the first, if no target may take ten bytes; and not at all if there are seventeen relationships
for every packer and two more for every target that may take ten bytes. -/
theorem estimate_encloses_produced {a : Adjacency} {packers wide : Nat} (h : a.Produced packers wide) :
    ((∀ page ∈ a.pages, page.size ≤ bytesPerPage) → a.ownEstimate.min ≤ a.bytes) ∧
      (wide = 0 → a.bytes ≤ a.ownEstimate.max + (packers - 1) * Paged.tableEntry) ∧
      (17 * packers + 2 * wide ≤ a.relationshipCount → a.bytes ≤ a.ownEstimate.max) := by
  obtain ⟨packs, hpacked, hpackers, hsum, hwide⟩ := h.exists_packs
  refine ⟨hpacked.min_le, fun hnone => ?_, fun hmany => hpacked.le_max (by omega)⟩
  refine (hpacked.le_max_add (hwide hnone)).trans ?_
  exact Nat.add_le_add_left (Nat.mul_le_mul_right _ (Nat.sub_le_sub_right hpackers 1)) _

/-- Twenty-one relationships of one packer are within the bounds, and three of three packers within those and
two entries. -/
theorem estimate_encloses_lists_and_cycle :
    (Adjacency.ofSortedLists [(List.range 20).map UInt64.ofNat, [0]]).ownEstimate.min ≤
        (Adjacency.ofSortedLists [(List.range 20).map UInt64.ofNat, [0]]).bytes ∧
      (Adjacency.ofSortedLists [(List.range 20).map UInt64.ofNat, [0]]).bytes ≤
        (Adjacency.ofSortedLists [(List.range 20).map UInt64.ofNat, [0]]).ownEstimate.max ∧
      ∃ r, ((Intake.new (.identity 3) { concurrency := 3 } 1).serveAll
          [.addDenseTo 0 0 1 1, .addDenseTo 0 1 2 1, .addDenseTo 0 2 0 1]).close.build = .ok r ∧
        r.adjacency.bytes ≤ r.adjacency.ownEstimate.max + 2 * Paged.tableEntry := by
  have hlists := estimate_encloses_produced
    (@Adjacency.Produced.ofSortedLists [(List.range 20).map UInt64.ofNat, [0]] (by decide))
  refine ⟨hlists.1 (by decide +kernel), hlists.2.2 (by decide +kernel), ?_⟩
  have hvalid : (IdMap.identity 3).Valid := IdMap.valid_identity (by decide)
  refine (Intake.exists_build_of_calls hvalid ?workers ?kind ?names).imp fun r hbuild => ⟨hbuild, ?_⟩
  case workers => decide
  case kind => decide
  case names => decide
  have hcycle := estimate_encloses_produced (.ofBuild hvalid (by decide) (by decide) hbuild)
  refine (hcycle.2.1 rfl).trans (Nat.add_le_add_left (Nat.mul_le_mul_right _ ?_) _)
  exact Nat.sub_le_sub_right (List.countP_le_length (l := rangePartition 3 3)) 1

/-- Three packers with a relationship each need more bytes than the estimate allows, and a run that is longer
than a page needs fewer. -/
theorem estimate_missed_on_both_sides :
    (∃ r, ((Intake.new (.identity 3) { concurrency := 3 } 1).serveAll
        [.addDenseTo 0 0 1 1, .addDenseTo 0 1 2 1, .addDenseTo 0 2 0 1]).close.build = .ok r ∧
      r.adjacency.ownEstimate.max = 114 ∧ r.adjacency.bytes = 119) ∧
    (Adjacency.ofSortedLists [List.replicate 262145 0]).bytes = 262205 ∧
      (Adjacency.ofSortedLists [List.replicate 262145 0]).ownEstimate.min = 262221 := by
  obtain ⟨hnode, hcount, hbytes⟩ := Adjacency.ofSortedLists_zeros (show bytesPerPage < 262145 by decide)
  refine ⟨?_, hbytes, by rw [Adjacency.ownEstimate, hnode, hcount]; rfl⟩
  have hsizes : (((Intake.new (.identity 3) { concurrency := 3 } 1).serveAll
      [.addDenseTo 0 0 1 1, .addDenseTo 0 1 2 1, .addDenseTo 0 2 0 1]).close.build.map fun r =>
        (r.adjacency.ownEstimate.max, r.adjacency.bytes)) = .ok (114, 119) := by cbv
  generalize ((Intake.new (.identity 3) { concurrency := 3 } 1).serveAll
      [.addDenseTo 0 0 1 1, .addDenseTo 0 1 2 1, .addDenseTo 0 2 0 1]).close.build = built at hsizes ⊢
  cases built with
  | error cause => exact absurd hsizes (by simp [Except.map])
  | ok r => simpa [Except.map] using hsizes

end PackedGraph
