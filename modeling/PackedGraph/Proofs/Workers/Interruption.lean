import PackedGraph.Proofs.Workers.Cancellation

/-!
# How far a worker alone comes

A worker alone that is asked to stop after so many nodes has processed the first so many, in ascending order; asked
before it begins, none.  The request is known at the end if it has come by then.

Main definition: `StopAfter.within`.  Main statements: `Crew.handOut_batches_alone` and
`Crew.handOut_partitions_alone`.
-/

namespace PackedGraph

/-- How many of so many nodes a worker alone processes. -/
def StopAfter.within (stop : StopAfter) (count : Nat) : Nat :=
  match stop with
  | some limit => min limit count
  | none => count

namespace StopAfter

variable {stop : StopAfter} {limit count : Nat}

theorem within_le (stop : StopAfter) (count : Nat) : stop.within count ≤ count := by
  cases stop with
  | none => exact Nat.le_refl count
  | some limit => exact Nat.min_le_right limit count

theorem within_of_le (h : limit ≤ count) : StopAfter.within (some limit) count = limit := Nat.min_eq_left h

theorem reached_of_le (h : limit ≤ count) : StopAfter.reached (some limit) count = true := decide_eq_true h

theorem not_reached_iff : StopAfter.reached (some limit) count = false ↔ count < limit :=
  decide_eq_false_iff_not.trans Nat.not_le

/-- A request that has not come by then has not come before. -/
theorem not_reached_of_le {earlier : Nat} (h : stop.reached count = false) (hle : earlier ≤ count) :
    stop.reached earlier = false := by
  cases stop with
  | none => rfl
  | some limit => exact not_reached_iff.mpr (hle.trans_lt (not_reached_iff.mp h))

theorem within_of_not_reached (h : stop.reached count = false) : stop.within count = count := by
  cases stop with
  | none => rfl
  | some limit => exact Nat.min_eq_right (not_reached_iff.mp h).le

/-- Whoever processes a node has not been asked before. -/
theorem not_reached_of_within_pos (h : 0 < stop.within count) : stop.reached 0 = false := by
  cases stop with
  | none => rfl
  | some limit => exact not_reached_iff.mpr (h.trans_le (Nat.min_le_left limit count))

/-- A later phase gets what an earlier one has left of the number. -/
theorem later_within (stop : StopAfter) (count : Nat) : stop.later (stop.within count) = stop.later count := by
  cases stop with
  | none => rfl
  | some limit =>
    refine congrArg some ?_
    change limit - min limit count = limit - count
    omega

/-- It finds the request at its beginning if it has come in the earlier one. -/
theorem reached_later (stop : StopAfter) (count : Nat) : (stop.later count).reached 0 = stop.reached count := by
  cases stop with
  | none => rfl
  | some limit =>
    have hiff : limit - count ≤ 0 ↔ limit ≤ count := by omega
    exact decide_eq_decide.mpr hiff

/-- A task that does nothing but to wait for the request lasts as long as it does not come. -/
theorem neverRequested_task {nodes : List Nat} (h : stop.reached nodes.length = false) :
    NeverRequested stop.task 0 nodes := by
  intro place node hnode
  obtain ⟨hplace, -⟩ := List.getElem?_eq_some_iff.mp hnode
  unfold StopAfter.task
  refine if_neg fun hstop => ?_
  subst hstop
  have := not_reached_iff.mp h
  omega

/-- The request comes with the node with which the number is reached. -/
theorem requestedAt_task {nodes : List Nat} (h : limit < nodes.length) :
    RequestedAt (StopAfter.task (some (limit + 1))) 0 nodes limit := by
  constructor
  case comes =>
    refine ⟨nodes[limit], List.getElem?_eq_getElem h, ?_⟩
    unfold StopAfter.task
    rw [Nat.zero_add, if_pos rfl]
  case first =>
    intro earlier hlt node _
    unfold StopAfter.task
    refine if_neg fun hstop => ?_
    have := Option.some.inj hstop
    omega

/-- **The walk of a worker who waits for the request** takes it as far as the request lets it. -/
theorem walk_eq (stop : StopAfter) (nodes : List Nat) :
    walk stop.task (stop.reached 0) 0 nodes =
      ⟨nodes.take (stop.within nodes.length), stop.reached nodes.length, .value ()⟩ := by
  cases hreached : stop.reached nodes.length with
  | false =>
    rw [not_reached_of_le hreached (Nat.zero_le _), walk_of_neverRequested (neverRequested_task hreached),
      within_of_not_reached hreached, List.take_length]
  | true =>
    obtain ⟨limit, rfl⟩ : ∃ limit, stop = some limit := by
      cases stop with
      | none => exact absurd hreached (by simp [StopAfter.reached])
      | some limit => exact ⟨limit, rfl⟩
    have hle : limit ≤ nodes.length := of_decide_eq_true hreached
    rw [within_of_le hle]
    cases limit with
    | zero =>
      rw [reached_of_le (Nat.le_refl 0), walk_stopped]
      rfl
    | succ limit =>
      rw [not_reached_iff.mpr (Nat.succ_pos limit), walk_of_requestedAt (requestedAt_task hle)]

end StopAfter

/-- So of the nodes below a count it processes the first ones. -/
theorem StopAfter.walk_range (stop : StopAfter) (count : Nat) :
    walk stop.task (stop.reached 0) 0 (List.range count) =
      ⟨List.range (stop.within count), stop.reached count, .value ()⟩ := by
  rw [stop.walk_eq, List.length_range, List.take_range, Nat.min_eq_left (stop.within_le count)]

/-- What a walk does depends on what the task does at its nodes. -/
theorem walk_congr {task other : Task} {stopped : Bool} {before : Nat} {nodes : List Nat}
    (h : ∀ before, ∀ node ∈ nodes, task before node = other before node) :
    walk task stopped before nodes = walk other stopped before nodes := by
  induction nodes generalizing stopped before with
  | nil => rfl
  | cons node rest ih =>
    rw [walk, walk, h before node List.mem_cons_self,
      ih fun later other hother => h later other (List.mem_cons_of_mem _ hother)]

/-- Who comes back from a walk without having been asked to stop has processed all nodes. -/
theorem done_of_walk {task : Task} (hnever : ∀ before node, task before node ≠ .doneAndStop) {before : Nat}
    {nodes : List Nat} (h : (walk task false before nodes).outcome = .value ()) :
    ∀ node ∈ nodes, ∃ before, task before node = .done := by
  induction nodes generalizing before with
  | nil => exact fun node hnode => absurd hnode List.not_mem_nil
  | cons first rest ih =>
    cases hfirst : task before first with
    | done =>
      rw [walk_of_done hfirst] at h
      exact List.forall_mem_cons.mpr ⟨⟨before, hfirst⟩, ih h⟩
    | doneAndStop => exact absurd hfirst (hnever before first)
    | failed cause =>
      rw [walk_of_failed hfirst] at h
      exact absurd h (by simp)
    | panicked payload =>
      rw [walk_of_panicked hfirst] at h
      exact absurd h (by simp)

namespace Crew

theorem HasWalked.value_of_outcome {c : Crew} {w : Walk} {earlier : Nat} (h : c.HasWalked w earlier)
    {results : List Unit} (houtcome : c.outcome = .ok results) : w.outcome = .value () := by
  simp only [Crew.outcome, h.stages_eq, collect, List.zipIdx_singleton, List.map_cons, List.map_nil,
    List.mergeSort_singleton, List.mapM_cons] at houtcome
  obtain ⟨result, hsettle, -⟩ := ok_of_bind houtcome
  exact Outcome.settle_eq_ok_iff.mp hsettle

/-- A worker alone with batches, who may know already at the beginning that the request has come. -/
theorem settle_begin_alone {pool : Pool} (hone : pool.concurrency = 1) {nodeCount batch : Nat}
    (hlimit : nodeCount + batch < counterLimit) (task : Task) (stopped : Bool) (stop : StopAfter)
    (progress : Progress) :
    (((forBatches pool nodeCount batch stopped progress).begin stop).settle task).HasWalked
      (walk task (stopped || stop.reached 0) 0 (List.range nodeCount)) progress.done := by
  rw [forBatches, hone]
  exact settle_alone_batches task (show 0 < max batch 1 by omega) (show nodeCount + max batch 1 ≤ counterLimit by omega)
    (stopped || stop.reached 0) progress

/-- A worker alone with batches. -/
theorem handOut_batches_alone {pool : Pool} (hone : pool.concurrency = 1) {nodeCount batch : Nat}
    (hlimit : nodeCount + batch < counterLimit) (stop : StopAfter) (progress : Progress) :
    ((forBatches pool nodeCount batch false progress).handOut stop).HasWalked
      ⟨List.range (stop.within nodeCount), stop.reached nodeCount, .value ()⟩ progress.done := by
  have hwalked := settle_begin_alone hone hlimit stop.task false stop progress
  rwa [Bool.false_or, stop.walk_range] at hwalked

/-- A worker alone with the partitions of a node range. -/
theorem handOut_partitions_alone {pool : Pool} (hone : pool.concurrency = 1) (nodeCount concurrency : Nat)
    (stop : StopAfter) (progress : Progress) :
    ((forPartitions pool (rangePartition nodeCount concurrency) false progress).handOut stop).HasWalked
      ⟨List.range (stop.within nodeCount), stop.reached nodeCount, .value ()⟩ progress.done := by
  have hwalked := settle_alone stop.task (rangePartition nodeCount concurrency) (stop.reached 0) progress
  rw [flatMap_nodes_rangePartition, stop.walk_range] at hwalked
  have hworkers : max (min pool.concurrency (rangePartition nodeCount concurrency).length) 1 = 1 := by omega
  rw [forPartitions, hworkers]
  exact hwalked

end Crew

end PackedGraph
