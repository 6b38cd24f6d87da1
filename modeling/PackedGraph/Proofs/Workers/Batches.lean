import Mathlib.Data.List.Induction
import PackedGraph.Proofs.Workers.HandOut
import PackedGraph.Proofs.Workers.Pool

/-!
# Batches are partitions

A counter that goes up by the size of a batch hands out the tiles of the nodes one after the other, as
long as it does not wrap around; a worker that finds nothing left takes it up once more and is back.  So
a crew in front of a counter takes the steps of a crew in front of the tiles.

Main statement: `Crew.handsOut_trace_batches`.
-/

namespace PackedGraph

/-- Whether a worker is back. -/
def Stage.back : Stage → Bool
  | .finished _ => true
  | _ => false

/-- The counter stays below this number. -/
def counterLimit : Nat := 18446744073709551616

namespace Crew

variable {c d : Crew} {nodeCount batch index : Nat} {task : Task} {worker : Nat}

/-- How many workers are back. -/
def backCount (c : Crew) : Nat := c.stages.toList.countP Stage.back

/-- A worker that was not back is, or is not, after its move. -/
theorem backCount_move {moved : Crew} (heq : moved.stages = c.stages) {stage : Stage}
    (h : c.stages[worker]? = some stage) (hback : stage.back = false) (later : Stage) :
    (moved.move worker later).backCount = c.backCount + if later.back then 1 else 0 := by
  obtain ⟨front, rear, hsplit, -, hset⟩ := exists_split h
  rw [backCount, backCount, move, heq, hset, hsplit, List.countP_append, List.countP_append,
    List.countP_cons, List.countP_cons, hback]
  simp
  omega

theorem backCount_lt {stage : Stage} (h : c.stages[worker]? = some stage) (hback : stage.back = false) :
    c.backCount < c.stages.size := by
  rw [backCount, ← Array.length_toList]
  refine Nat.lt_of_le_of_ne List.countP_le_length fun heq => ?_
  have hmem : stage ∈ c.stages.toList := List.mem_of_getElem? (by rwa [Array.getElem?_toList])
  have := List.countP_eq_length.mp heq stage hmem
  rw [hback] at this
  exact Bool.false_ne_true this

/-- A crew in front of a counter that has handed out as many tiles as are missing in front of another
crew, or more where workers are back. -/
structure Counts (nodeCount batch index : Nat) (c d : Crew) : Prop where
  /-- The crews differ in their sources only. -/
  eq : c = { d with source := .counter (UInt64.ofNat (index * batch)) batch nodeCount }
  /-- The other crew is in front of the tiles that are left. -/
  tiles : d.source = .partitions ((tiles nodeCount batch).drop index)
  /-- Only a worker that is back has counted beyond the last tile. -/
  index_le : index ≤ ceilDiv nodeCount batch + d.backCount

/-- What the counter hands out is the next tile. -/
theorem claim_counter (hbatch : 0 < batch) (hlt : index * batch < counterLimit) :
    (Source.counter (UInt64.ofNat (index * batch)) batch nodeCount).claim =
      ((tiles nodeCount batch)[index]?.map fun p => (p.start, p.stop),
        .counter (UInt64.ofNat ((index + 1) * batch)) batch nodeCount) := by
  have hnext : (UInt64.ofNat (index * batch)).toNat = index * batch := UInt64.toNat_ofNat_of_lt' hlt
  rw [Source.claim]
  simp only [hnext]
  refine Prod.ext ?_ ?_
  · rw [tiles, List.getElem?_map]
    by_cases hinside : index * batch < nodeCount
    · rw [if_neg (by omega), List.getElem?_range ((lt_ceilDiv_iff hbatch).mpr hinside)]
      simp only [Option.map_some, Partition.stop]
      rw [show min (index * batch + batch) nodeCount =
        index * batch + min batch (nodeCount - index * batch) by omega]
    · have hover : ceilDiv nodeCount batch ≤ index :=
        Nat.le_of_not_lt fun hlt => hinside ((lt_ceilDiv_iff hbatch).mp hlt)
      rw [if_pos (by omega), List.getElem?_eq_none (by rwa [List.length_range])]
      rfl
  · rw [Nat.succ_mul, UInt64.ofNat_add]

theorem claim_partitions (rest : List Partition) : (Source.partitions rest).claim =
    (rest.head?.map fun p => (p.start, p.stop), .partitions rest.tail) := by
  cases rest <;> rfl

theorem Counts.size_eq (h : Counts nodeCount batch index c d) : c.stages.size = d.stages.size := by
  rw [h.eq]

/-- Whoever asks, the counter has not wrapped around. -/
theorem Counts.lt_limit (h : Counts nodeCount batch index c d) (hbatch : 0 < batch)
    (hlimit : nodeCount + d.stages.size * batch ≤ counterLimit)
    (hasking : d.stages[worker]? = some .asking) : index * batch < counterLimit := by
  have hless := backCount_lt hasking rfl
  have htiles : ceilDiv nodeCount batch * batch < nodeCount + batch := by
    rw [ceilDiv]
    have := Nat.div_mul_le_self (nodeCount + batch - 1) batch
    omega
  obtain ⟨others, hothers⟩ : ∃ others, d.stages.size = others + 1 := ⟨d.stages.size - 1, by omega⟩
  rw [hothers, Nat.succ_mul] at hlimit
  calc index * batch ≤ (ceilDiv nodeCount batch + others) * batch :=
        Nat.mul_le_mul_right _ (by have := h.index_le; omega)
    _ = ceilDiv nodeCount batch * batch + others * batch := Nat.add_mul ..
    _ < nodeCount + (others * batch + batch) := by omega
    _ ≤ counterLimit := hlimit

/-- Every step of the one crew is one of the other. -/
theorem Counts.step (h : Counts nodeCount batch index c d) (hbatch : 0 < batch)
    (hlimit : nodeCount + d.stages.size * batch ≤ counterLimit) (task : Task) (worker : Nat) :
    ∃ index', Counts nodeCount batch index' (c.step task worker) (d.step task worker) := by
  obtain ⟨rfl, htiles, hindex⟩ := h
  have hcounts : Counts nodeCount batch index
      { d with source := .counter (UInt64.ofNat (index * batch)) batch nodeCount } d :=
    ⟨rfl, htiles, hindex⟩
  rcases hstage : d.stages[worker]? with - | ⟨- | ⟨node, stop, processed⟩ | outcome⟩
  · exact ⟨index, by simpa only [Crew.step, hstage] using hcounts⟩
  · -- both claim the next tile, or find none
    have hclaim := @claim_counter nodeCount batch index hbatch (hcounts.lt_limit hbatch hlimit hstage)
    refine ⟨index + 1, ?_⟩
    simp only [Crew.step, hstage, hclaim, htiles, claim_partitions, List.head?_drop, List.tail_drop]
    rcases hnext : (PackedGraph.tiles nodeCount batch)[index]? with - | p
    · refine ⟨rfl, rfl, ?_⟩
      simp only [Option.map_none]
      have hback : ∀ (rest : Source) (later : Stage), ({ d with source := rest }.move worker later).backCount =
          d.backCount + if later.back then 1 else 0 := fun _ later => backCount_move rfl hstage rfl later
      rw [hback]
      exact Nat.succ_le_succ hindex
    · refine ⟨rfl, rfl, ?_⟩
      have hinside : index < ceilDiv nodeCount batch := by
        have := (List.getElem?_eq_some_iff.mp hnext).1
        rwa [PackedGraph.tiles, List.length_map, List.length_range] at this
      exact Nat.le_trans hinside (Nat.le_add_right _ _)
  · -- a worker at work does not look at the source
    have hmoved : ∀ (moved : Crew) (later : Stage), moved.stages = d.stages →
        index ≤ ceilDiv nodeCount batch + (moved.move worker later).backCount := by
      intro moved later heq
      rw [backCount_move heq hstage rfl]
      exact Nat.le_trans hindex (Nat.add_le_add_left (Nat.le_add_right _ _) _)
    refine ⟨index, ?_⟩
    simp only [Crew.step, hstage]
    split
    · exact ⟨rfl, htiles, hmoved _ _ rfl⟩
    · split
      · exact ⟨rfl, htiles, hmoved _ _ rfl⟩
      · split <;> exact ⟨rfl, htiles, hmoved _ _ rfl⟩
  · exact ⟨index, by simpa only [Crew.step, hstage] using hcounts⟩

/-- No step makes workers come or go. -/
theorem size_stages_step (task : Task) (worker : Nat) (c : Crew) :
    (c.step task worker).stages.size = c.stages.size := by
  rw [step]
  split
  · split <;> rw [size_stages_move]
  · split
    · rw [size_stages_move, report]
    · split
      · rw [size_stages_move, report]
      · split <;> rw [size_stages_move]
  · rfl
  · rfl

theorem size_stages_runWorker (task : Task) (worker steps : Nat) (c : Crew) :
    (c.runWorker task worker steps).stages.size = c.stages.size := by
  induction steps generalizing c with
  | zero => rfl
  | succ steps ih =>
    rw [runWorker]
    split
    · rfl
    · rfl
    · rw [ih, size_stages_step]

theorem Counts.runWorker (hbatch : 0 < batch) (task : Task) (worker steps : Nat) :
    ∀ {index : Nat} {c d : Crew}, Counts nodeCount batch index c d →
      nodeCount + d.stages.size * batch ≤ counterLimit →
      ∃ index', Counts nodeCount batch index' (c.runWorker task worker steps)
        (d.runWorker task worker steps) := by
  induction steps with
  | zero => exact fun {index} _ _ h _ => ⟨index, h⟩
  | succ steps ih =>
    intro index c d h hlimit
    obtain ⟨index', hstep⟩ := h.step hbatch hlimit task worker
    have hlater := ih hstep (by rwa [size_stages_step])
    have hstages : c.stages[worker]? = d.stages[worker]? := by rw [h.eq]
    rw [Crew.runWorker, Crew.runWorker, hstages]
    split
    · exact ⟨index, h⟩
    · exact ⟨index, h⟩
    · exact hlater

theorem Counts.foldl_runWorker (hbatch : 0 < batch) (task : Task) (steps : Nat) (workers : List Nat) :
    ∀ {index : Nat} {c d : Crew}, Counts nodeCount batch index c d →
      nodeCount + d.stages.size * batch ≤ counterLimit →
      ∃ index', Counts nodeCount batch index'
        (workers.foldl (fun c worker => c.runWorker task worker steps) c)
        (workers.foldl (fun d worker => d.runWorker task worker steps) d) := by
  induction workers with
  | nil => exact fun {index} _ _ h _ => ⟨index, h⟩
  | cons worker workers ih =>
    intro index c d h hlimit
    obtain ⟨index', hnext⟩ := h.runWorker hbatch task worker steps hlimit
    exact ih hnext (by rwa [size_stages_runWorker])

/-! ## Whole runs -/

/-- A crew in front of the tiles that a counter hands out. -/
def forTiles (workers nodeCount batch : Nat) (progress : Progress) : Crew :=
  new workers (.partitions (PackedGraph.tiles nodeCount batch)) false progress

theorem counts_new (workers nodeCount batch : Nat) (progress : Progress) :
    Counts nodeCount batch 0 (new workers (.counter 0 batch nodeCount) false progress)
      (forTiles workers nodeCount batch progress) := by
  refine ⟨?_, rfl, Nat.zero_le _⟩
  rw [Nat.zero_mul]
  rfl

theorem budget_tiles (nodeCount batch : Nat) (hbatch : 0 < batch) :
    (Source.partitions (PackedGraph.tiles nodeCount batch)).budget ≤
      (Source.counter 0 batch nodeCount).budget := by
  have hbudget : ∀ rest : List Partition, (Source.partitions rest).budget =
      (rest.flatMap Partition.nodes).length + 2 * rest.length + 1 := by
    intro rest
    induction rest with
    | nil => rfl
    | cons p rest ih =>
      rw [budget_cons, ih, List.flatMap_cons, List.length_append, List.length_cons, Partition.nodes,
        List.length_map, List.length_range]
      omega
  have hlength : (PackedGraph.tiles nodeCount batch).length ≤ nodeCount := by
    rw [PackedGraph.tiles, List.length_map, List.length_range]
    exact ceilDiv_le hbatch
  rw [hbudget, flatMap_nodes_tiles hbatch, List.length_range, Source.budget]
  omega

/-- **The run that an analysis takes in batches hands out all nodes.** -/
theorem handsOut_trace_batches (pool : Pool) (nodeCount batch : Nat) (progress : Progress)
    (hlimit : nodeCount + (pool.concurrency + 1) * max batch 1 ≤ counterLimit) :
    HandsOut nodeCount pool.concurrency
      ((forBatches pool nodeCount batch false progress).trace none) ∧
    ((forBatches pool nodeCount batch false progress).handOut none).stopped = false := by
  have hbatch : 0 < max batch 1 := by omega
  have hdone : ∀ before node, StopAfter.task none before node = .done := fun _ _ => rfl
  have hbegin : (forBatches pool nodeCount batch false progress).handOut none =
      (forBatches pool nodeCount batch false progress).settle (StopAfter.task none) := rfl
  obtain ⟨index, hcounts⟩ := Counts.foldl_runWorker hbatch (StopAfter.task none)
    (Source.counter 0 (max batch 1) nodeCount).budget (List.range pool.concurrency)
    (counts_new pool.concurrency nodeCount (max batch 1) progress) (by
      rw [forTiles, size_stages_new]
      exact (Nat.add_le_add_left (Nat.mul_le_mul_right _ (Nat.le_succ _)) _).trans hlimit)
  obtain ⟨schedule, hrun, hback, hstay⟩ := foldl_runWorker_spec hdone
    (List.nodup_range (n := pool.concurrency)) (c := forTiles pool.concurrency nodeCount (max batch 1) progress)
    rfl rfl (budget_tiles nodeCount (max batch 1) hbatch) (by
      intro w hw
      rw [forTiles, new, Array.getElem?_replicate, if_pos (List.mem_range.mp hw)])
  rw [hrun] at hcounts
  have hnew := covers_new pool.concurrency (PackedGraph.tiles nodeCount (max batch 1)) progress
  obtain ⟨⟨left, hcovers⟩, hsize'⟩ := hnew.run hdone schedule
  rw [size_stages_new] at hsize'
  rw [flatMap_nodes_tiles hbatch] at hcovers
  have hfinished : ((forTiles pool.concurrency nodeCount (max batch 1) progress).run
      (StopAfter.task none) schedule).finished = true := by
    refine finished_iff.mpr fun stage hstage => ?_
    obtain ⟨w, hw, rfl⟩ := List.getElem_of_mem hstage
    obtain ⟨outcome, hfinished⟩ := hback w (List.mem_range.mpr (by
      rw [Array.length_toList] at hw
      exact hsize' ▸ hw))
    rw [Array.getElem?_eq_some_iff] at hfinished
    exact ⟨outcome, hfinished.2⟩
  obtain ⟨hnodes, hworkers⟩ := hcovers.handsOut (by rw [hsize']; exact pool.positive) hfinished
  have hsettle : (forBatches pool nodeCount batch false progress).settle (StopAfter.task none) =
      (List.range pool.concurrency).foldl (fun c worker => c.runWorker (StopAfter.task none) worker
          (Source.counter 0 (max batch 1) nodeCount).budget)
        (new pool.concurrency (.counter 0 (max batch 1) nodeCount) false progress) := by
    rw [settle, forBatches, size_stages_new]
    rfl
  rw [trace, hbegin, hsettle, hcounts.eq]
  exact ⟨⟨hnodes, fun v hv => hsize' ▸ hworkers v hv⟩, hcovers.running⟩

/-! ## Whole runs -/

/-- What every step keeps, a whole run keeps. -/
theorem settle_induction {P : Crew → Prop} (hstep : ∀ d worker, P d → P (Crew.step task worker d)) (h : P c) :
    P (c.settle task) := by
  have hworker : ∀ (worker steps : Nat) (d : Crew), P d → P (d.runWorker task worker steps) := by
    intro worker steps
    induction steps with
    | zero => exact fun _ hd => hd
    | succ steps ih =>
      intro d hd
      rw [Crew.runWorker]
      split
      · exact hd
      · exact hd
      · exact ih _ (hstep d worker hd)
  rw [settle]
  generalize List.range c.stages.size = order
  induction order using List.reverseRecOn with
  | nil => exact h
  | append_singleton order worker ih =>
    rw [List.foldl_append]
    exact hworker worker _ _ ih

/-- So does a run in which the workers take their steps in any order. -/
theorem run_induction {P : Crew → Prop} (hstep : ∀ d worker, P d → P (Crew.step task worker d)) (h : P c)
    (schedule : List Nat) : P (c.run task schedule) := by
  induction schedule generalizing c with
  | nil => exact h
  | cons worker schedule ih => exact ih (hstep c worker h)

theorem size_stages_settle (task : Task) (c : Crew) : (c.settle task).stages.size = c.stages.size :=
  @settle_induction c task (fun d => d.stages.size = c.stages.size)
    (fun d worker hd => (size_stages_step task worker d).trans hd) rfl

/-- A step processes no node, or one through the worker who takes it. -/
theorem mem_visits_step {v : Visit} (hv : v ∈ (c.step task worker).visits.toList) :
    v ∈ c.visits.toList ∨ v.worker = worker ∧ worker < c.stages.size := by
  rw [step] at hv
  split at hv
  · split at hv <;> exact .inl hv
  · next hstage =>
    have hworker := (Array.getElem?_eq_some_iff.mp hstage).1
    have hpush : ∀ node, v ∈ (c.visits.push ⟨worker, node⟩).toList →
        v ∈ c.visits.toList ∨ v.worker = worker ∧ worker < c.stages.size := by
      intro node hv
      rw [Array.toList_push, List.mem_append, List.mem_singleton] at hv
      exact hv.imp_right fun heq => ⟨congrArg Visit.worker heq, hworker⟩
    split at hv
    · exact .inl hv
    · split at hv
      · exact .inl hv
      · dsimp only at hv
        split at hv
        · exact hpush _ hv
        · exact hpush _ hv
        · exact .inl hv
        · exact .inl hv
  · exact .inl hv
  · exact .inl hv

/-- Whoever has processed a node is one of the crew. -/
theorem worker_lt_of_settle (hc : c.visits = #[]) :
    ∀ v ∈ (c.settle task).visits.toList, v.worker < (c.settle task).stages.size := by
  refine @settle_induction c task (fun d => ∀ v ∈ d.visits.toList, v.worker < d.stages.size) ?_ (by simp [hc])
  intro d worker hd v hv
  rw [size_stages_step]
  rcases mem_visits_step hv with hv | ⟨hworker, hlt⟩
  · exact hd v hv
  · exact hworker ▸ hlt

/-! ## Outcomes -/

/-- Whoever has come back has done so with an outcome of some kind. -/
def Returns (allowed : Outcome Unit → Prop) (c : Crew) : Prop :=
  ∀ outcome, Stage.finished outcome ∈ c.stages.toList → allowed outcome

variable {allowed : Outcome Unit → Prop}

theorem Returns.move (h : c.Returns allowed) {stage : Stage} (hstage : ∀ outcome, stage = .finished outcome →
    allowed outcome) {moved : Crew} (heq : moved.stages = c.stages) (worker : Nat) :
    (moved.move worker stage).Returns allowed := by
  intro outcome hmem
  rw [Crew.move, heq, Array.toList_setIfInBounds] at hmem
  rcases List.mem_or_eq_of_mem_set hmem with hmem | hmem
  · exact h outcome hmem
  · exact hstage outcome hmem.symm

/-- Workers come back empty-handed, or as their task lets them. -/
theorem Returns.step (h : c.Returns allowed) (hvalue : allowed (.value ()))
    (hfailed : ∀ before node cause, task before node = .failed cause → allowed (.fault cause))
    (hpanicked : ∀ before node payload, task before node = .panicked payload → allowed (.panicked payload))
    (worker : Nat) : (c.step task worker).Returns allowed := by
  have hback : ∀ outcome, Stage.finished (.value ()) = .finished outcome → allowed outcome :=
    fun outcome heq => Stage.finished.inj heq ▸ hvalue
  rw [Crew.step]
  split
  · split
    · exact h.move (by simp) rfl worker
    · exact h.move hback rfl worker
  · split
    · exact h.move (by simp) rfl worker
    · split
      · exact h.move hback rfl worker
      · dsimp only
        split
        · exact h.move (by simp) rfl worker
        · exact h.move (by simp) rfl worker
        · next cause hcause =>
          exact h.move (fun outcome heq => Stage.finished.inj heq ▸ hfailed _ _ cause hcause) rfl worker
        · next payload hpayload =>
          exact h.move (fun outcome heq => Stage.finished.inj heq ▸ hpanicked _ _ payload hpayload) rfl worker
  · exact h
  · exact h

/-- Where the task is always done, they come back empty-handed. -/
theorem Returns.step_of_done (h : c.Returns (· = .value ())) (hdone : ∀ before node, task before node = .done)
    (worker : Nat) : (c.step task worker).Returns (· = .value ()) :=
  h.step rfl (by simp [hdone]) (by simp [hdone]) worker

theorem returns_new (workers : Nat) (source : Source) (stopped : Bool) (progress : Progress) :
    (new workers source stopped progress).Returns allowed := by
  intro outcome hmem
  rw [new, Array.toList_replicate, List.mem_replicate] at hmem
  exact absurd hmem.2 (by simp)

/-- A crew fails with the outcome of one who has come back. -/
theorem Returns.exists_of_outcome_eq_error (h : c.Returns allowed) {cause : Fault}
    (herror : c.outcome = .error cause) : ∃ outcome, allowed outcome ∧ outcome.settle = .error cause := by
  obtain ⟨arrival, harrival, hsettle⟩ := exists_of_mapM_eq_error herror
  rw [(List.mergeSort_perm _ _).mem_iff, List.mem_map] at harrival
  obtain ⟨⟨stage, worker⟩, hmem, rfl⟩ := harrival
  cases stage with
  | finished outcome => exact ⟨outcome, h outcome (List.fst_mem_of_mem_zipIdx hmem), hsettle⟩
  | asking => exact absurd hsettle (by simp [Outcome.settle])
  | working node stop processed => exact absurd hsettle (by simp [Outcome.settle])

/-- A crew that comes back empty-handed comes back without a failure. -/
theorem Returns.exists_outcome_eq_ok (h : c.Returns (· = .value ())) : ∃ results, c.outcome = .ok results := by
  cases houtcome : c.outcome with
  | ok results => exact ⟨results, rfl⟩
  | error cause =>
    obtain ⟨outcome, rfl, hsettle⟩ := h.exists_of_outcome_eq_error houtcome
    exact absurd hsettle (by simp [Outcome.settle])

/-- A crew whose task does not fail comes back without a failure, and in full number. -/
theorem outcome_settle (hdone : ∀ before node, task before node = .done) (workers : Nat) (source : Source)
    (stopped : Bool) (progress : Progress) :
    (∃ results, ((new workers source stopped progress).settle task).outcome = .ok results) ∧
      ((new workers source stopped progress).settle task).stages.size = workers := by
  have hreturns : ((new workers source stopped progress).settle task).Returns (· = .value ()) :=
    settle_induction (fun _ worker hd => hd.step_of_done hdone worker)
      (returns_new workers source stopped progress)
  exact ⟨hreturns.exists_outcome_eq_ok, (size_stages_settle task _).trans (size_stages_new ..)⟩

end Crew

end PackedGraph
