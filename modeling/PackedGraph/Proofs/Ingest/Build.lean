import Mathlib.Algebra.Order.BigOperators.Group.List
import Mathlib.Algebra.Order.Group.Nat
import PackedGraph.Proofs.Graph.Relationships
import PackedGraph.Proofs.Ingest.Ledger
import PackedGraph.Proofs.Ingest.Rows
import PackedGraph.Proofs.Workers.Pool

/-!
# What is built from what was taken in

Every worker packs the bucket of its partition.  A bucket holds the relationships of the partition's
nodes and no others, so the rows of all workers behind each other are the rows of all nodes, each made
of what has arrived for the node.

Main statements: `build_topology` and `build_weights`.
-/

namespace PackedGraph

/-! ## One worker -/

/-- Only the bucket of a node holds relationships of the node. -/
theorem weightsBetween_filter {bucketOf : Nat → Nat} {source bucket : Nat}
    (h : bucketOf source = bucket) (target : Nat) (relationships : List StoredRelationship) :
    weightsBetween source target (relationships.filter fun r => bucketOf r.source == bucket) =
      weightsBetween source target relationships := by
  rw [weightsBetween, weightsBetween, List.filter_filter]
  congr 1
  refine List.filter_congr fun r _ => ?_
  by_cases heq : r.source = source
  · simp [heq, h]
  · simp [heq]

theorem Partition.pairwise_nodes (partition : Partition) : partition.nodes.Pairwise (· < ·) := by
  rw [nodes, List.pairwise_map]
  exact List.pairwise_lt_range.imp fun hlt => Nat.add_lt_add_left hlt _

/-- Entries that are all related to something are related to a list. -/
theorem exists_forall₂ {α β : Type} {R : α → β → Prop} {xs : List α} (h : ∀ x ∈ xs, ∃ y, R x y) :
    ∃ ys, List.Forall₂ R xs ys := by
  induction xs with
  | nil => exact ⟨[], .nil⟩
  | cons x xs ih =>
    obtain ⟨y, hy⟩ := h x List.mem_cons_self
    obtain ⟨ys, hys⟩ := ih fun other hother => h other (List.mem_cons_of_mem _ hother)
    exact ⟨y :: ys, .cons hy hys⟩

namespace Intake

variable {nodes : IdMap} {s : RelationshipSettings} {t : Intake} {l : Ledger}

/-- The bucket of a partition holds what has arrived for the partition's nodes. -/
theorem KeepsLedger.toList_bucket (h : KeepsLedger nodes s t l) {worker : Nat}
    (hworker : worker < t.partitions.length) :
    (t.buckets.getD worker #[]).toList = l.arrived.filter fun r => t.bucketOf r.source == worker :=
  h.buckets.toList_eq worker hworker

/-- A node is in the partition of its bucket. -/
theorem KeepsLedger.mem_nodes_iff (h : KeepsLedger nodes s t l) {worker node : Nat}
    (hworker : worker < t.partitions.length) :
    node ∈ t.partitions[worker].nodes ↔ node < nodes.nodeCount ∧ t.bucketOf node = worker := by
  simp only [bucketOf]
  have hpartitions := h.partitions_eq
  generalize t.partitions = partitions at hworker hpartitions ⊢
  subst hpartitions
  rw [mem_nodes_iff_partitionIndex hworker]
  refine and_congr_right fun hnode => ?_
  rw [(partitionIndex?_rangePartition hnode _).1, Option.getD_some, Option.some.injEq]

/-- Sorted, the bucket of a node has the same relationships of the node as all that has arrived. -/
theorem KeepsLedger.ownOf_bucket (h : KeepsLedger nodes s t l) {worker node : Nat}
    (hworker : worker < t.partitions.length) (hnode : t.bucketOf node = worker) :
    ownOf node ((t.buckets.getD worker #[]).toList.mergeSort StoredRelationship.le) =
      ownOf node (l.arrived.mergeSort StoredRelationship.le) := by
  refine eq_of_weightsTo (List.pairwise_map.mpr (pairwise_ownOf_mergeSort node _))
    (List.pairwise_map.mpr (pairwise_ownOf_mergeSort node _)) fun target => ?_
  rw [weightsTo_ownOf_mergeSort, weightsTo_ownOf_mergeSort, h.toList_bucket hworker,
    weightsBetween_filter hnode]

/-- Packing a partition is merging what has arrived for each of its nodes. -/
theorem KeepsLedger.pack_eq (h : KeepsLedger nodes s t l) (hdense : AllBelow nodes.nodeCount l.arrived)
    {worker : Nat} (hworker : worker < t.partitions.length) :
    PackedPartition.pack nodes s.aggregation t.partitions[worker] (t.buckets.getD worker #[]).toList =
      (t.partitions[worker].nodes.mapM
        (mergeOwn nodes s.aggregation (l.arrived.mergeSort StoredRelationship.le))).map
          fun rows => rows.foldl PackedPartition.push .empty := by
  rw [PackedPartition.pack, PackedPartition.packNodes_eq nodes s.aggregation (Partition.pairwise_nodes _)]
  · congr 1
    refine mapM_congr fun node hnode => ?_
    rw [mergeOwn, mergeOwn, h.ownOf_bucket hworker ((h.mem_nodes_iff hworker).mp hnode).2]
  · refine (List.pairwise_mergeSort StoredRelationship.le_trans StoredRelationship.le_total _).imp
      fun {a b} hle => ?_
    rw [StoredRelationship.le_iff] at hle
    omega
  · intro r hr
    rw [(List.mergeSort_perm _ _).mem_iff, h.toList_bucket hworker, List.mem_filter,
      beq_iff_eq] at hr
    exact (h.mem_nodes_iff hworker).mpr ⟨(hdense r hr.1).1, hr.2⟩

/-- It succeeds if every merge does. -/
theorem KeepsLedger.pack_eq_ok_iff (h : KeepsLedger nodes s t l)
    (hdense : AllBelow nodes.nodeCount l.arrived) {worker : Nat}
    (hworker : worker < t.partitions.length) (packed : PackedPartition) :
    PackedPartition.pack nodes s.aggregation t.partitions[worker] (t.buckets.getD worker #[]).toList =
        .ok packed ↔
      ∃ rows, List.Forall₂ (fun node row => s.aggregation.merge
          (ownOf node (l.arrived.mergeSort StoredRelationship.le)) = .ok row)
        t.partitions[worker].nodes rows ∧ packed = rows.foldl PackedPartition.push .empty := by
  rw [h.pack_eq hdense hworker]
  simp only [← @mergeOwn_eq_ok_iff nodes, ← mapM_eq_ok_iff]
  cases t.partitions[worker].nodes.mapM
      (mergeOwn nodes s.aggregation (l.arrived.mergeSort StoredRelationship.le)) with
  | error cause => simp [Except.map]
  | ok rows => simp [Except.map, eq_comm]

/-- A worker makes the rows of its nodes from what has arrived. -/
theorem KeepsLedger.rows_of_pack (h : KeepsLedger nodes s t l) (hnodes : nodes.Valid)
    (hdense : AllBelow nodes.nodeCount l.arrived) {worker : Nat}
    (hworker : worker < t.partitions.length) {packed : PackedPartition}
    (hpack : PackedPartition.pack nodes s.aggregation t.partitions[worker]
      (t.buckets.getD worker #[]).toList = .ok packed) :
    ∃ rows, List.Forall₂ (s.aggregation.MakesRow l.arrived) t.partitions[worker].nodes rows ∧
      packed.Represents rows := by
  obtain ⟨rows, hmerged, rfl⟩ := (h.pack_eq_ok_iff hdense hworker packed).mp hpack
  have htargets : ∀ r ∈ l.arrived, r.target < largestWord := fun r hr =>
    Nat.lt_of_lt_of_le (hdense r hr).2 hnodes.nodeCount_le
  have hrows : List.Forall₂ (s.aggregation.MakesRow l.arrived) t.partitions[worker].nodes rows :=
    hmerged.imp fun node row hmerge => Aggregation.makesRow_of_merge hmerge
  refine ⟨rows, hrows, ?_⟩
  refine PackedPartition.represents_empty.foldl_push fun row hrow => ?_
  obtain ⟨index, hindex, rfl⟩ := List.getElem_of_mem hrow
  exact (hrows.get (hrows.length_eq ▸ hindex) hindex).ascendsFrom htargets

/-- A worker comes back unless it has to refuse. -/
theorem KeepsLedger.exists_pack (h : KeepsLedger nodes s t l)
    (hdense : AllBelow nodes.nodeCount l.arrived)
    (haggregation : s.aggregation ≠ .reject) {worker : Nat} (hworker : worker < t.partitions.length) :
    ∃ packed, PackedPartition.pack nodes s.aggregation t.partitions[worker]
      (t.buckets.getD worker #[]).toList = .ok packed := by
  obtain ⟨rows, hrows⟩ := exists_forall₂ fun node (_ : node ∈ t.partitions[worker].nodes) =>
    Aggregation.exists_merge haggregation (ownOf node (l.arrived.mergeSort StoredRelationship.le))
  exact ⟨_, (h.pack_eq_ok_iff hdense hworker _).mpr ⟨rows, hrows, rfl⟩⟩

/-! ## All workers -/

/-- How a worker comes back. -/
def packTask (t : Intake) (worker : Nat) : Outcome PackedPartition :=
  match PackedPartition.pack t.nodes t.settings.aggregation (t.partitions.toArray.getD worker ⟨0, 0⟩)
    (t.buckets.getD worker #[]).toList with
  | .ok packed => .value packed
  | .error cause => .fault cause

theorem build_eq {t : Intake} (hconcurrency : 1 ≤ t.settings.concurrency) :
    t.build = (Pool.run t.partitions.length t.packTask).map fun packed =>
      (packed.foldl PackedNodes.append .empty).relationships t.settings := by
  rw [build, show checkConcurrency t.settings.concurrency = .ok () from if_neg (by omega)]
  change (Pool.run t.partitions.length t.packTask).bind _ = _
  cases Pool.run t.partitions.length t.packTask <;> rfl

/-- A build is made of what all workers come back with. -/
theorem build_eq_ok_iff {t : Intake} (hconcurrency : 1 ≤ t.settings.concurrency)
    (r : Relationships) :
    t.build = .ok r ↔
      ∃ packed, List.Forall₂ (fun worker packed => t.packTask worker = .value packed)
          (List.range t.partitions.length) packed ∧
        r = (packed.foldl PackedNodes.append .empty).relationships t.settings := by
  simp only [build_eq hconcurrency, ← Pool.run_eq_ok_iff]
  cases Pool.run t.partitions.length t.packTask with
  | error cause => simp [Except.map]
  | ok packed => simp [Except.map, eq_comm]

/-- A worker comes back with what it makes of its partition. -/
theorem packTask_eq_value_iff {t : Intake} {worker : Nat} (hworker : worker < t.partitions.length)
    (packed : PackedPartition) :
    t.packTask worker = .value packed ↔
      PackedPartition.pack t.nodes t.settings.aggregation t.partitions[worker]
        (t.buckets.getD worker #[]).toList = .ok packed := by
  have hpartition : t.partitions.toArray.getD worker ⟨0, 0⟩ = t.partitions[worker] := by
    rw [Array.getD_eq_getD_getElem?, List.getElem?_toArray, List.getElem?_eq_getElem hworker,
      Option.getD_some]
  rw [packTask, hpartition]
  cases PackedPartition.pack t.nodes t.settings.aggregation t.partitions[worker]
    (t.buckets.getD worker #[]).toList <;> simp

/-- The rows that all workers make, one list of them for every partition. -/
theorem KeepsLedger.rows_of_workers (h : KeepsLedger nodes s t l) (hnodes : nodes.Valid)
    (hdense : AllBelow nodes.nodeCount l.arrived) {packed : List PackedPartition}
    (hpacked : List.Forall₂ (fun worker packed => t.packTask worker = .value packed)
      (List.range t.partitions.length) packed) :
    ∃ rowss, List.Forall₂ (fun partition rows =>
        List.Forall₂ (s.aggregation.MakesRow l.arrived) partition.nodes rows) t.partitions rowss ∧
      List.Forall₂ PackedPartition.Represents packed rowss := by
  have hlength : t.partitions.length = packed.length := by
    rw [← hpacked.length_eq, List.length_range]
  obtain ⟨rowss, hboth⟩ := exists_forall₂ (R := fun (pair : Partition × PackedPartition) rows =>
      List.Forall₂ (s.aggregation.MakesRow l.arrived) pair.1.nodes rows ∧ pair.2.Represents rows)
    fun pair (hpair : pair ∈ t.partitions.zip packed) => by
      obtain ⟨worker, hlt, rfl⟩ := List.getElem_of_mem hpair
      have hworker : worker < t.partitions.length := by
        rw [List.length_zip] at hlt
        omega
      have htask := hpacked.get (by rwa [List.length_range]) (hlength ▸ hworker)
      rw [List.get_eq_getElem, List.getElem_range, packTask_eq_value_iff hworker, h.nodes_eq,
        h.settings_eq] at htask
      rw [List.getElem_zip]
      exact h.rows_of_pack hnodes hdense hworker htask
  refine ⟨rowss, ?_, ?_⟩
  · rw [← List.map_fst_zip hlength.le, List.forall₂_map_left_iff]
    exact hboth.imp fun _ _ => And.left
  · rw [← List.map_snd_zip hlength.ge, List.forall₂_map_left_iff]
    exact hboth.imp fun _ _ => And.right

/-- What is built represents the rows of all nodes. -/
theorem KeepsLedger.rows_of_build (h : KeepsLedger nodes s t l) (hnodes : nodes.Valid)
    (hdense : AllBelow nodes.nodeCount l.arrived) (hconcurrency : 1 ≤ s.concurrency)
    {r : Relationships} (hbuild : t.build = .ok r) :
    ∃ (all : PackedNodes) (rows : List (List (Nat × Float))),
      List.Forall₂ (s.aggregation.MakesRow l.arrived) (List.range nodes.nodeCount) rows ∧
        all.Represents rows ∧ r = all.relationships s := by
  obtain ⟨packed, hpacked, rfl⟩ := (build_eq_ok_iff (h.settings_eq ▸ hconcurrency) r).mp hbuild
  obtain ⟨rowss, hrows, hrepresents⟩ := h.rows_of_workers hnodes hdense hpacked
  refine ⟨_, rowss.flatten, ?_, ?_, congrArg _ h.settings_eq⟩
  · -- The partitions tile the nodes, so the rows of all partitions are the rows of all nodes.
    rw [← flatMap_nodes_rangePartition nodes.nodeCount (max s.concurrency 1), ← h.partitions_eq,
      List.flatMap_def]
    exact List.rel_flatten (List.forall₂_map_left_iff.mpr hrows)
  · exact PackedNodes.represents_empty.foldl_append hrepresents

/-- A build succeeds unless it has to refuse. -/
theorem KeepsLedger.exists_build (h : KeepsLedger nodes s t l)
    (hdense : AllBelow nodes.nodeCount l.arrived)
    (hconcurrency : 1 ≤ s.concurrency) (haggregation : s.aggregation ≠ .reject) :
    ∃ r, t.build = .ok r := by
  obtain ⟨packed, hpacked⟩ := exists_forall₂ (R := fun worker packed => t.packTask worker = .value packed)
    fun worker (hmem : worker ∈ List.range t.partitions.length) => by
      have hworker := List.mem_range.mp hmem
      obtain ⟨packed, hpack⟩ := h.exists_pack hdense haggregation hworker
      refine ⟨packed, (packTask_eq_value_iff hworker packed).mpr ?_⟩
      rw [h.nodes_eq, h.settings_eq]
      exact hpack
  exact ⟨_, (build_eq_ok_iff (h.settings_eq ▸ hconcurrency) _).mpr ⟨packed, hpacked, rfl⟩⟩

/-- Only settings with a worker build anything. -/
theorem one_le_concurrency_of_build {r : Relationships} (hbuild : t.build = .ok r) :
    1 ≤ t.settings.concurrency := by
  by_contra hzero
  rw [build, show checkConcurrency t.settings.concurrency =
    .error (.configuration "concurrency must be at least 1") from if_pos (by omega)] at hbuild
  exact absurd hbuild (by simp [bind, Except.bind])

/-- The rows of what is built, each with the words that stand for its targets. -/
theorem KeepsLedger.exists_rows (h : KeepsLedger nodes s t l) (hnodes : nodes.Valid)
    (hdense : AllBelow nodes.nodeCount l.arrived) {r : Relationships} (hbuild : t.build = .ok r) :
    ∃ (all : PackedNodes) (rows : List (List (Nat × Float))),
      all.Represents rows ∧ r = all.relationships s ∧ rows.length = nodes.nodeCount ∧
        ∀ node < nodes.nodeCount, ∃ row, rows[node]? = some row ∧
          s.aggregation.MakesRow l.arrived node row ∧
          (wordsOf row).map UInt64.toNat = row.map Prod.fst := by
  have hconcurrency := one_le_concurrency_of_build hbuild
  rw [h.settings_eq] at hconcurrency
  obtain ⟨all, rows, hrows, hrepresents, hr⟩ := h.rows_of_build hnodes hdense hconcurrency hbuild
  have hlength : rows.length = nodes.nodeCount := by
    rw [← hrows.length_eq, List.length_range]
  refine ⟨all, rows, hrepresents, hr, hlength, fun node hnode => ?_⟩
  have hindex : node < rows.length := hlength ▸ hnode
  have hrow := hrows.get (by rwa [List.length_range]) hindex
  rw [List.get_eq_getElem, List.getElem_range, List.get_eq_getElem] at hrow
  refine ⟨rows[node], List.getElem?_eq_getElem hindex, hrow, hrow.map_toNat_wordsOf fun r hr => ?_⟩
  exact Nat.lt_of_lt_of_le (hdense r hr).2 hnodes.nodeCount_le

/-- There are no more relationships than have arrived. -/
theorem KeepsLedger.relationshipCount_le (h : KeepsLedger nodes s t l) (hnodes : nodes.Valid)
    (hdense : AllBelow nodes.nodeCount l.arrived) {r : Relationships} (hbuild : t.build = .ok r) :
    r.adjacency.relationshipCount ≤ l.arrived.length := by
  obtain ⟨all, rows, hrepresents, rfl, hlength, hrows⟩ := h.exists_rows hnodes hdense hbuild
  have hparts := (perm_flatMap_filter StoredRelationship.source fun r hr => (hdense r hr).1).length_eq
  rw [hrepresents.relationshipCount_eq, hparts, List.length_flatMap]
  refine List.Forall₂.sum_le_sum (List.forall₂_iff_get.mpr ⟨by simp [hlength], fun node hleft hright => ?_⟩)
  rw [List.length_map] at hleft
  obtain ⟨row, hrow, hmakes, -⟩ := hrows node (hlength ▸ hleft)
  have hown := hmakes.length_le
  obtain ⟨hindex, rfl⟩ := List.getElem?_eq_some_iff.mp hrow
  simpa [ownOf] using hown

/-- What calls on any number of batches build, once all batches are closed. -/
theorem rows_of_calls (hnodes : nodes.Valid) {batches : Nat} {calls : List Call}
    (hcalls : ∀ call ∈ calls, call.NamesBatch batches) {r : Relationships}
    (hbuild : ((Intake.new nodes s batches).serveAll calls).close.build = .ok r) :
    ∃ (all : PackedNodes) (rows : List (List (Nat × Float))),
      all.Represents rows ∧ r = all.relationships s ∧ rows.length = nodes.nodeCount ∧
        ∀ node < nodes.nodeCount, ∃ row, rows[node]? = some row ∧
          s.aggregation.MakesRow (arrivals nodes s batches calls) node row ∧
          (wordsOf row).map UInt64.toNat = row.map Prod.fst :=
  (keepsLedger_close nodes s batches calls).exists_rows hnodes (allBelow_arrivals hnodes hcalls) hbuild

/-- Whatever the calls, something is built, unless parallel relationships are to be refused. -/
theorem exists_build_of_calls (hnodes : nodes.Valid) (hconcurrency : 1 ≤ s.concurrency)
    (haggregation : s.aggregation ≠ .reject) {batches : Nat} {calls : List Call}
    (hcalls : ∀ call ∈ calls, call.NamesBatch batches) :
    ∃ r, ((Intake.new nodes s batches).serveAll calls).close.build = .ok r :=
  (keepsLedger_close nodes s batches calls).exists_build (allBelow_arrivals hnodes hcalls) hconcurrency
    haggregation

end Intake

/-! ## Topology -/

/-- **A build loses nothing and adds nothing.**  Whatever calls were made, directly and through any
number of batches, and however they were partitioned, buffered and handed over: the targets of a node
ascend, and a target occurs as often as the accepted calls produce the pair, or once where parallel
relationships become one.  The calls that are refused, at whatever point, are those that offer nothing
and do not hand over. -/
theorem build_topology {nodes : IdMap} (hnodes : nodes.Valid) (s : RelationshipSettings)
    {batches : Nat} {calls : List Call} (hcalls : ∀ call ∈ calls, call.NamesBatch batches)
    {r : Relationships}
    (hbuild : ((Intake.new nodes s batches).serveAll calls).close.build = .ok r) :
    r.adjacency.nodeCount = nodes.nodeCount ∧
      (∀ source < nodes.nodeCount, (r.targets source).Pairwise (· ≤ ·) ∧
        r.adjacency.degree source = (r.targets source).length ∧
        ∀ target, (r.targets source).count target =
          let produced := (offers nodes s calls).countP (s.produces source target)
          if s.aggregation = .none then produced else if 0 < produced then 1 else 0) ∧
      r.adjacency.relationshipCount =
        ((List.range nodes.nodeCount).map fun source => (r.targets source).length).sum ∧
      ∀ (served : List Call) (call : Call),
        (∃ node, ((Intake.new nodes s batches).serveAll served).call call =
            .error (.unknownNode node)) ↔
          call.offer? nodes s = none ∧ ∀ batch, call ≠ .flush batch := by
  obtain ⟨all, rows, hrepresents, rfl, hlength, hrows⟩ := Intake.rows_of_calls hnodes hcalls hbuild
  refine ⟨?_, fun source hsource => ?_, ?_, fun served call => ?_⟩
  · rw [hrepresents.holds.nodeCount_eq, List.length_map, hlength]
  · obtain ⟨row, hrow, hmakes, hwords⟩ := hrows source hsource
    have htargets := hrepresents.targets_eq (s := s) hrow hwords
    refine ⟨htargets ▸ hmakes.ascending, ?_, fun target => ?_⟩
    · rw [hrepresents.degree_eq hrow, htargets, List.length_map]
    · rw [htargets, ← length_weightsTo, hmakes.weights]
      simp only [← countP_arrivals nodes s hcalls source target]
      rw [← length_weightsBetween]
      exact Aggregation.length_kept_eq _ _
  · rw [hrepresents.relationshipCount_eq]
    congr 1
    refine List.ext_getElem (by simp [hlength]) fun source hleft hright => ?_
    rw [List.length_map, List.length_range] at hright
    obtain ⟨row, hrow, -, hwords⟩ := hrows source hright
    rw [List.getElem_map, List.getElem_map, List.getElem_range,
      hrepresents.targets_eq (s := s) hrow hwords]
    exact (congrArg List.length (List.getElem?_eq_some_iff.mp hrow).2).trans (List.length_map _).symm
  · have hledger := Intake.keepsLedger_serveAll nodes s batches served
    rw [Intake.refused_iff, hledger.nodes_eq, hledger.settings_eq]

/-- Two batches and three partitions: a relationship that is held back, parallel ones in both
directions, a loop that is dropped, and a node that is unknown. -/
theorem topology_of_two_batches :
    ∃ r, ((Intake.new (.identity 5)
          { orientation := .undirected, allowSelfLoops := false, batchSize := 3,
            concurrency := 3 } 2).serveAll
        [.add 0 1 none, .addTo 0 1 0 none, .addTo 1 4 4 none, .add 9 0 none, .addDenseTo 1 3 1 2,
          .addTo 0 1 3 none, .flush 1, .addDenseTo 0 1 7 1]).close.build = .ok r ∧
      r.adjacency.nodeCount = 5 ∧ (r.targets 1).count 0 = 2 ∧ (r.targets 1).count 3 = 2 ∧
      (r.targets 4).count 4 = 0 := by
  refine (Intake.exists_build_of_calls ?valid ?workers ?kind ?names).imp fun r hbuild => ⟨hbuild, ?_⟩
  case valid => exact IdMap.valid_identity (by decide)
  case workers => decide
  case kind => decide
  case names => decide
  obtain ⟨hcount, htargets, -⟩ := build_topology (IdMap.valid_identity (by decide)) _ (by decide) hbuild
  refine ⟨hcount, ?_, ?_, ?_⟩
  · rw [(htargets 1 (by decide)).2.2]
    decide
  · rw [(htargets 1 (by decide)).2.2]
    decide
  · rw [(htargets 4 (by decide)).2.2]
    decide

/-! ## Weights -/

end PackedGraph
