import PackedGraph.Proofs.Workers.Counter

/-!
# A worker alone

A single worker takes one batch after the other, so it makes no difference to what it processes where the
batches begin and end: it walks through the nodes in their order until there are no more, the request to
stop has come, or a node cannot be processed.  Only the reports know of batches, and they add up to the
nodes that are processed.

Main statements: `Crew.settle_alone` for partitions and `Crew.settle_alone_batches` for a counter.
-/

namespace PackedGraph

/-! ## The walk -/

/-- How a walk through some nodes ends. -/
structure Walk where
  /-- The nodes that are processed, in order. -/
  processed : List Nat
  /-- Whether the request to stop has come. -/
  stopped : Bool
  /-- How the worker comes back. -/
  outcome : Outcome Unit
  deriving Repr, DecidableEq, Inhabited

/-- The same walk with some nodes processed before. -/
def Walk.behind (earlier : List Nat) (w : Walk) : Walk := { w with processed := earlier ++ w.processed }

/-- Process some nodes in order, so many having been processed before, until the request to stop has come
or a node cannot be processed. -/
def walk (task : Task) (stopped : Bool) (before : Nat) : List Nat → Walk
  | [] => ⟨[], stopped, .value ()⟩
  | node :: rest =>
    if stopped then ⟨[], true, .value ()⟩
    else match task before node with
      | .done => (walk task false (before + 1) rest).behind [node]
      | .doneAndStop => ⟨[node], true, .value ()⟩
      | .failed cause => ⟨[], false, .fault cause⟩
      | .panicked payload => ⟨[], false, .panicked payload⟩

section

variable {task : Task} {before node : Nat} {rest : List Nat}

theorem Walk.behind_behind (first second : List Nat) (w : Walk) :
    (w.behind second).behind first = w.behind (first ++ second) := by
  simp [behind]

/-- Whoever has been asked to stop processes nothing. -/
theorem walk_stopped (task : Task) (before : Nat) (nodes : List Nat) :
    walk task true before nodes = ⟨[], true, .value ()⟩ := by
  cases nodes <;> simp [walk]

theorem walk_of_done (h : task before node = .done) :
    walk task false before (node :: rest) = (walk task false (before + 1) rest).behind [node] := by
  simp [walk, h]

theorem walk_of_doneAndStop (h : task before node = .doneAndStop) :
    walk task false before (node :: rest) = ⟨[node], true, .value ()⟩ := by
  simp [walk, h]

theorem walk_of_failed {cause : Fault} (h : task before node = .failed cause) :
    walk task false before (node :: rest) = ⟨[], false, .fault cause⟩ := by
  simp [walk, h]

theorem walk_of_panicked {payload : Payload} (h : task before node = .panicked payload) :
    walk task false before (node :: rest) = ⟨[], false, .panicked payload⟩ := by
  simp [walk, h]

end

/-! ## The worker on its walk -/

/-- What a worker does from a stage on, if nobody else takes anything away from what is left to claim. -/
def Stage.ahead (task : Task) (stopped : Bool) (before : Nat) (later : List Nat) : Stage → Walk
  | .finished outcome => ⟨[], stopped, outcome⟩
  | stage => walk task stopped before (stage.pending ++ later)

namespace Crew

variable {c : Crew} {task : Task} {whole : Walk} {earlier : Nat} {rest : List Partition} {stage : Stage}

/-- A crew of one that is on its way through a walk, and had reported so many nodes before. -/
structure Alone (task : Task) (whole : Walk) (earlier : Nat) (c : Crew) (rest : List Partition)
    (stage : Stage) : Prop where
  /-- There is one worker. -/
  stages_eq : c.stages = #[stage]
  /-- The partitions that are left to claim. -/
  source_eq : c.source = .partitions rest
  /-- Nobody else has processed anything. -/
  worker_eq : ∀ v ∈ c.visits.toList, v.worker = 0
  /-- What is visited and what lies ahead make up the walk. -/
  whole_eq : (stage.ahead task c.stopped c.visits.size (rest.flatMap Partition.nodes)).behind
    (c.visits.toList.map Visit.node) = whole
  /-- What is visited is reported, or will be, unless the worker has given up. -/
  reported : (∀ outcome, stage = .finished outcome → outcome = .value ()) →
    c.progress.done + stage.unreported = earlier + c.visits.size

theorem Alone.getElem? (h : Alone task whole earlier c rest stage) : c.stages[0]? = some stage := by
  simp [h.stages_eq]

/-- The worker claims the next partition, or comes back if there is none. -/
theorem Alone.ask (h : Alone task whole earlier c rest .asking) :
    ∃ left later, Alone task whole earlier (c.step task 0) left later ∧ debt left later < debt rest .asking := by
  have hstage := h.getElem?
  obtain ⟨hstages, hsource, hworker, hwhole, hreported⟩ := h
  have hcount := hreported (by simp)
  cases rest with
  | nil =>
    refine ⟨[], .finished (.value ()), ?_, by simp [debt, Source.budget]⟩
    simp only [step, hstage, hsource, Source.claim]
    refine ⟨by simp [move, hstages], rfl, hworker, ?_, fun _ => hcount⟩
    simpa [Stage.ahead, Stage.pending, walk, move] using hwhole
  | cons p others =>
    refine ⟨others, .working p.start p.stop 0, ?_, ?_⟩
    · simp only [step, hstage, hsource, Source.claim]
      refine ⟨by simp [move, hstages], rfl, hworker, ?_, fun _ => hcount⟩
      simpa [Stage.ahead, Stage.pending, move, Partition.nodes_eq, Partition.stop] using hwhole
    · simp only [debt, budget_cons, Partition.stop]
      omega

/-- The worker reports its batch if that is at its end, comes back if it has been asked to, and otherwise
takes up the next node. -/
theorem Alone.work {node stop processed : Nat}
    (h : Alone task whole earlier c rest (.working node stop processed)) :
    ∃ left later, Alone task whole earlier (c.step task 0) left later ∧
      debt left later < debt rest (.working node stop processed) := by
  have hstage := h.getElem?
  obtain ⟨hstages, hsource, hworker, hwhole, hreported⟩ := h
  have hcount := hreported (by simp)
  simp only [Stage.unreported] at hcount
  by_cases hend : stop ≤ node
  · refine ⟨rest, .asking, ?_, ?_⟩
    · simp only [step, hstage, if_pos hend]
      refine ⟨by simp [move, report, hstages], hsource, hworker, ?_, fun _ => ?_⟩
      · simpa [Stage.ahead, Stage.pending, move, report, Nat.sub_eq_zero_of_le hend] using hwhole
      · rw [move, done_report]
        exact hcount
    · simp only [debt]
      omega
  have hpending : ∀ later, (Stage.working node stop processed).pending =
      node :: (Stage.working (node + 1) stop later).pending :=
    Stage.pending_working (Nat.lt_of_not_le hend) processed
  have hback : ∀ outcome, debt rest (.finished outcome) < debt rest (.working node stop processed) := by
    intro outcome
    simp only [debt]
    omega
  by_cases hstopped : c.stopped = true
  · refine ⟨rest, .finished (.value ()), ?_, hback _⟩
    simp only [step, hstage, if_neg hend, if_pos hstopped]
    refine ⟨by simp [move, report, hstages], hsource, hworker, ?_, fun _ => ?_⟩
    · simpa [Stage.ahead, hstopped, walk_stopped, move, report] using hwhole
    · rw [move, done_report]
      exact hcount
  rw [Bool.not_eq_true] at hstopped
  simp only [Stage.ahead, hstopped, hpending (processed + 1), List.cons_append] at hwhole
  have hpush : ∀ v ∈ (c.visits.push ⟨0, node⟩).toList, v.worker = 0 := by
    intro v hv
    rw [Array.toList_push, List.mem_append, List.mem_singleton] at hv
    rcases hv with hv | rfl
    · exact hworker v hv
    · rfl
  simp only [step, hstage, if_neg hend, hstopped, Bool.false_eq_true, if_false]
  cases htask : task c.visits.size node with
  | done =>
    rw [walk_of_done htask, Walk.behind_behind] at hwhole
    refine ⟨rest, .working (node + 1) stop (processed + 1), ⟨by simp [move, hstages], hsource, hpush, ?_, ?_⟩, ?_⟩
    · simpa [Stage.ahead, move, hstopped] using hwhole
    · intro _
      simp only [move, Stage.unreported, Array.size_push]
      omega
    · simp only [debt]
      omega
  | doneAndStop =>
    rw [walk_of_doneAndStop htask] at hwhole
    refine ⟨rest, .working (node + 1) stop (processed + 1), ⟨by simp [move, hstages], hsource, hpush, ?_, ?_⟩, ?_⟩
    · simpa [Stage.ahead, move, walk_stopped, Walk.behind] using hwhole
    · intro _
      simp only [move, Stage.unreported, Array.size_push]
      omega
    · simp only [debt]
      omega
  | failed cause =>
    rw [walk_of_failed htask] at hwhole
    refine ⟨rest, .finished (.fault cause), ⟨by simp [move, hstages], hsource, hworker, ?_, ?_⟩, hback _⟩
    · simpa [Stage.ahead, move, hstopped] using hwhole
    · exact fun hvalue => absurd (hvalue _ rfl) (by simp)
  | panicked payload =>
    rw [walk_of_panicked htask] at hwhole
    refine ⟨rest, .finished (.panicked payload), ⟨by simp [move, hstages], hsource, hworker, ?_, ?_⟩, hback _⟩
    · simpa [Stage.ahead, move, hstopped] using hwhole
    · exact fun hvalue => absurd (hvalue _ rfl) (by simp)

/-- **The worker comes back**, in as many steps as it owes at most. -/
theorem Alone.runWorker (steps : Nat) :
    ∀ {c : Crew} {rest : List Partition} {stage : Stage}, Alone task whole earlier c rest stage →
      debt rest stage ≤ steps →
      ∃ left outcome, Alone task whole earlier (c.runWorker task 0 steps) left (.finished outcome) := by
  induction steps with
  | zero =>
    intro c rest stage h hdebt
    cases stage with
    | finished outcome => exact ⟨rest, outcome, h⟩
    | asking =>
      obtain ⟨left, later, -, hless⟩ := h.ask
      omega
    | working node stop processed =>
      obtain ⟨left, later, -, hless⟩ := h.work
      omega
  | succ steps ih =>
    intro c rest stage h hdebt
    rw [Crew.runWorker, h.getElem?]
    cases stage with
    | finished outcome => exact ⟨rest, outcome, h⟩
    | asking =>
      obtain ⟨left, later, hnext, hless⟩ := h.ask
      exact ih hnext (by omega)
    | working node stop processed =>
      obtain ⟨left, later, hnext, hless⟩ := h.work
      exact ih hnext (by omega)

/-! ## Whole runs -/

/-- A crew of one that is back from a walk, and had reported so many nodes before. -/
structure HasWalked (c : Crew) (w : Walk) (earlier : Nat) : Prop where
  /-- The nodes of the walk are visited, in order. -/
  visits_eq : c.visits.toList = w.processed.map (Visit.mk 0)
  /-- The crew knows whether it has been asked to stop. -/
  stopped_eq : c.stopped = w.stopped
  /-- The worker is back. -/
  stages_eq : c.stages = #[.finished w.outcome]
  /-- Unless it has given up, the nodes of the walk are reported. -/
  done_eq : w.outcome = .value () → c.progress.done = earlier + w.processed.length

theorem Alone.hasWalked {outcome : Outcome Unit}
    (h : Alone task whole earlier c rest (.finished outcome)) : c.HasWalked whole earlier := by
  obtain ⟨hstages, -, hworker, rfl, hreported⟩ := h
  simp only [Stage.ahead, Walk.behind, List.append_nil]
  refine ⟨?_, rfl, hstages, fun hvalue => ?_⟩
  · rw [List.map_map]
    conv_lhs => rw [← List.map_id c.visits.toList]
    refine List.map_congr_left fun v hv => ?_
    rw [Function.comp, ← hworker v hv, id]
  · have hcount := hreported fun other heq => (Stage.finished.inj heq) ▸ hvalue
    simpa [Stage.unreported] using hcount

theorem alone_new (task : Task) (partitions : List Partition) (stopped : Bool) (progress : Progress) :
    Alone task (walk task stopped 0 (partitions.flatMap Partition.nodes)) progress.done
      (new 1 (.partitions partitions) stopped progress) partitions .asking := by
  refine ⟨rfl, rfl, by simp [new], ?_, fun _ => rfl⟩
  simp [new, Stage.ahead, Stage.pending, Walk.behind]

/-- **A worker alone walks through its partitions.** -/
theorem settle_alone (task : Task) (partitions : List Partition) (stopped : Bool) (progress : Progress) :
    ((new 1 (.partitions partitions) stopped progress).settle task).HasWalked
      (walk task stopped 0 (partitions.flatMap Partition.nodes)) progress.done := by
  obtain ⟨left, outcome, hend⟩ := (alone_new task partitions stopped progress).runWorker _ (le_refl _)
  exact hend.hasWalked

/-- **A worker alone walks through all nodes,** whatever its batches, as long as the counter does not wrap
around before it has found nothing. -/
theorem settle_alone_batches (task : Task) {nodeCount batch : Nat} (hbatch : 0 < batch)
    (hlimit : nodeCount + batch ≤ counterLimit) (stopped : Bool) (progress : Progress) :
    ((new 1 (.counter 0 batch nodeCount) stopped progress).settle task).HasWalked
      (walk task stopped 0 (List.range nodeCount)) progress.done := by
  have hcounts : Counts nodeCount batch 0 (new 1 (.counter 0 batch nodeCount) stopped progress)
      (new 1 (.partitions (tiles nodeCount batch)) stopped progress) := by
    refine ⟨?_, rfl, Nat.zero_le _⟩
    rw [Nat.zero_mul]
    rfl
  obtain ⟨index, hend⟩ := hcounts.runWorker hbatch task 0 (Source.counter 0 batch nodeCount).budget
    (by rwa [size_stages_new, Nat.one_mul])
  obtain ⟨left, outcome, halone⟩ := (alone_new task (tiles nodeCount batch) stopped progress).runWorker
    (Source.counter 0 batch nodeCount).budget (budget_tiles nodeCount batch hbatch)
  have hwalked := halone.hasWalked
  rw [flatMap_nodes_tiles hbatch] at hwalked
  change (Crew.runWorker task 0 (Source.counter 0 batch nodeCount).budget
    (new 1 (.counter 0 batch nodeCount) stopped progress)).HasWalked _ _
  rw [hend.eq]
  exact ⟨hwalked.visits_eq, hwalked.stopped_eq, hwalked.stages_eq, hwalked.done_eq⟩

end Crew

end PackedGraph
