import Mathlib.Algebra.GroupWithZero.Nat
import Mathlib.Algebra.BigOperators.Group.List.Basic
import Mathlib.Data.List.Basic
import Mathlib.Order.Lattice
import Mathlib.Data.Nat.Basic
import PackedGraph.Proofs.Workers.Partition
import PackedGraph.Workers.Crew

/-!
# Every node is handed out once

A trace *hands out* the nodes below a count if it visits each of them once, whatever the order and
whoever the worker.  A crew whose source are partitions that tile the nodes, and whose task neither fails
nor stops, hands out all nodes by the time all workers are back: what is visited, what the workers hold
and what is left to claim are together always all nodes.

The second half is about folds over a trace in which every worker has a state of its own: what they do to
the shared state is what one worker would do, as long as it does not depend on the worker's own state.

Main statements: `Crew.handsOut_of_run`, `Crew.handsOut_trace` and `foldl_onWorker`.
-/

namespace PackedGraph

/-- A trace that visits every node below a count once, each by one of so many workers. -/
structure HandsOut (nodeCount workers : Nat) (trace : List Visit) : Prop where
  /-- The visited nodes are all nodes, in some order. -/
  nodes : (trace.map Visit.node).Perm (List.range nodeCount)
  /-- Only the workers visit. -/
  worker_lt : ∀ v ∈ trace, v.worker < workers

/-! ## Crews in front of partitions -/

/-- The nodes that a worker has claimed and not processed. -/
def Stage.pending : Stage → List Nat
  | .working node stop _ => List.range' node (stop - node)
  | _ => []

/-- The next node of a batch is the first that is pending. -/
theorem Stage.pending_working {node stop : Nat} (h : node < stop) (processed later : Nat) :
    (Stage.working node stop processed).pending =
      node :: (Stage.working (node + 1) stop later).pending := by
  rw [pending, pending, show stop - node = stop - (node + 1) + 1 by omega, List.range'_succ]

theorem Partition.nodes_eq (p : Partition) : p.nodes = List.range' p.start p.count := by
  rw [nodes, List.range'_eq_map_range]

namespace Crew

/-- A crew in front of partitions, in whose hands are together all of the given nodes. -/
structure Covers (c : Crew) (all : List Nat) (rest : List Partition) : Prop where
  /-- The partitions that are left to claim. -/
  source_eq : c.source = .partitions rest
  /-- Nobody has asked the crew to stop. -/
  running : c.stopped = false
  /-- What is visited, what the workers hold and what is left make up all nodes. -/
  accounted : (c.visits.toList.map Visit.node ++ (c.stages.toList.flatMap Stage.pending ++
    rest.flatMap Partition.nodes)).Perm all
  /-- A worker comes back only when nothing is left to claim. -/
  exhausted : ∀ outcome, Stage.finished outcome ∈ c.stages.toList → rest = []
  /-- Only the workers visit. -/
  worker_lt : ∀ v ∈ c.visits.toList, v.worker < c.stages.size

variable {c : Crew} {all : List Nat} {rest : List Partition} {task : Task} {worker : Nat}

@[simp] theorem size_stages_move (c : Crew) (worker : Nat) (stage : Stage) :
    (c.move worker stage).stages.size = c.stages.size := by simp [move]

@[simp] theorem size_stages_new (workers : Nat) (source : Source) (stopped : Bool)
    (progress : Progress) : (new workers source stopped progress).stages.size = workers := by simp [new]

/-- The stages before and behind that of a worker stay where they are when the worker moves. -/
theorem exists_split {stage : Stage} (h : c.stages[worker]? = some stage) :
    ∃ front back, c.stages.toList = front ++ stage :: back ∧ front.length = worker ∧
      ∀ other : Stage, (c.stages.setIfInBounds worker other).toList = front ++ other :: back := by
  obtain ⟨hlt, hstage⟩ := Array.getElem?_eq_some_iff.mp h
  have hlength : worker < c.stages.toList.length := hlt
  have hfront : (c.stages.toList.take worker).length = worker := by
    rw [List.length_take]
    omega
  refine ⟨c.stages.toList.take worker, c.stages.toList.drop (worker + 1), ?_, hfront, fun other => ?_⟩
  · rw [← hstage, ← Array.getElem_toList, List.getElem_cons_drop, List.take_append_drop]
  · rw [Array.toList_setIfInBounds, List.set_eq_take_append_cons_drop, if_pos hlength]

/-- What a step of a worker can do, as long as the task neither fails nor stops. -/
theorem step_cases (hdone : ∀ before node, task before node = .done) (hrunning : c.stopped = false)
    (worker : Nat) :
    (c.step task worker = c ∧ ∀ stage, c.stages[worker]? = some stage →
        ∃ outcome, stage = .finished outcome) ∨
      (∃ start stop source, c.stages[worker]? = some .asking ∧
        c.source.claim = (some (start, stop), source) ∧
        c.step task worker = { c with source := source }.move worker (.working start stop 0)) ∨
      (∃ source, c.stages[worker]? = some .asking ∧ c.source.claim = (none, source) ∧
        c.step task worker = { c with source := source }.move worker (.finished (.value ()))) ∨
      (∃ node stop processed, c.stages[worker]? = some (.working node stop processed) ∧ stop ≤ node ∧
        c.step task worker = (c.report processed).move worker .asking) ∨
      ∃ node stop processed, c.stages[worker]? = some (.working node stop processed) ∧ node < stop ∧
        c.step task worker = { c with visits := c.visits.push ⟨worker, node⟩ }.move worker
          (.working (node + 1) stop (processed + 1)) := by
  rcases hstage : c.stages[worker]? with - | ⟨- | ⟨node, stop, processed⟩ | outcome⟩
  · left
    exact ⟨by simp only [step, hstage], by simp⟩
  · right
    rcases hclaim : c.source.claim with ⟨- | ⟨start, stop⟩, source⟩
    · right; left
      exact ⟨source, rfl, rfl, by simp only [step, hstage, hclaim]⟩
    · left
      exact ⟨start, stop, source, rfl, rfl, by simp only [step, hstage, hclaim]⟩
  · right; right; right
    by_cases hend : stop ≤ node
    · left
      exact ⟨node, stop, processed, rfl, hend, by simp only [step, hstage, if_pos hend]⟩
    · right
      refine ⟨node, stop, processed, rfl, Nat.lt_of_not_le hend, ?_⟩
      simp only [step, hstage, if_neg hend, hrunning, Bool.false_eq_true, if_false, hdone]
  · left
    refine ⟨by simp only [step, hstage], fun stage hfound => ⟨outcome, ?_⟩⟩
    exact (Option.some.inj hfound).symm

/-- In front of partitions, what is claimed is the next of them. -/
theorem step_cases_partitions (hdone : ∀ before node, task before node = .done)
    (hsource : c.source = .partitions rest) (hrunning : c.stopped = false) (worker : Nat) :
    (c.step task worker = c ∧ ∀ stage, c.stages[worker]? = some stage →
        ∃ outcome, stage = .finished outcome) ∨
      (∃ p others, c.stages[worker]? = some .asking ∧ rest = p :: others ∧
        c.step task worker =
          { c with source := .partitions others }.move worker (.working p.start p.stop 0)) ∨
      (c.stages[worker]? = some .asking ∧ rest = [] ∧
        c.step task worker = c.move worker (.finished (.value ()))) ∨
      (∃ node stop processed, c.stages[worker]? = some (.working node stop processed) ∧ stop ≤ node ∧
        c.step task worker = (c.report processed).move worker .asking) ∨
      ∃ node stop processed, c.stages[worker]? = some (.working node stop processed) ∧ node < stop ∧
        c.step task worker = { c with visits := c.visits.push ⟨worker, node⟩ }.move worker
          (.working (node + 1) stop (processed + 1)) := by
  rcases step_cases hdone hrunning worker with
    hback | ⟨start, stop, source, hstage, hclaim, heq⟩ | ⟨source, hstage, hclaim, heq⟩ | hother
  · exact .inl hback
  all_goals right
  · cases rest with
    | nil => simp [hsource, Source.claim] at hclaim
    | cons p others =>
      simp only [hsource, Source.claim, Prod.mk.injEq, Option.some.injEq] at hclaim
      obtain ⟨⟨rfl, rfl⟩, rfl⟩ := hclaim
      exact .inl ⟨p, others, hstage, rfl, heq⟩
  · cases rest with
    | nil =>
      simp only [hsource, Source.claim, Prod.mk.injEq, true_and] at hclaim
      rw [← hclaim, ← hsource] at heq
      exact .inr (.inl ⟨hstage, rfl, heq⟩)
    | cons p others => simp [hsource, Source.claim] at hclaim
  · exact .inr (.inr hother)

/-- A step loses no node and adds none. -/
theorem Covers.step (h : c.Covers all rest) (hdone : ∀ before node, task before node = .done)
    (worker : Nat) :
    (∃ left, (c.step task worker).Covers all left) ∧
      (c.step task worker).stages.size = c.stages.size := by
  have haccounted := h.accounted
  have hexhausted := h.exhausted
  rcases step_cases_partitions hdone h.source_eq h.running worker with
    ⟨heq, -⟩ | ⟨p, others, hstage, rfl, heq⟩ | ⟨hstage, rfl, heq⟩ |
    ⟨node, stop, processed, hstage, hend, heq⟩ | ⟨node, stop, processed, hstage, hlt, heq⟩
  · rw [heq]
    exact ⟨⟨rest, h⟩, rfl⟩
  all_goals
    obtain ⟨front, back, hstages, -, hset⟩ := exists_split hstage
    rw [hstages, List.perm_iff_count] at haccounted
    rw [hstages] at hexhausted
    rw [heq]
  · -- a partition is claimed: its nodes go from the source to the worker
    refine ⟨⟨others, rfl, h.running, ?_, ?_, by simpa [move] using h.worker_lt⟩, by simp⟩
    · rw [List.perm_iff_count]
      intro x
      have := haccounted x
      simp only [move, hset, List.flatMap_append, List.flatMap_cons, List.count_append, Stage.pending,
        List.count_nil, Partition.nodes_eq, Partition.stop, Nat.add_sub_cancel_left] at this ⊢
      omega
    · intro outcome hmem
      simp only [move, hset, List.mem_append, List.mem_cons] at hmem
      have := hexhausted outcome (by simpa using hmem)
      exact absurd this (by simp)
  · refine ⟨⟨[], h.source_eq, h.running, ?_, fun _ _ => rfl, by simpa [move] using h.worker_lt⟩,
      by simp⟩
    rw [List.perm_iff_count]
    intro x
    have := haccounted x
    simpa only [move, hset, List.flatMap_append, List.flatMap_cons, Stage.pending] using this
  · -- a batch is reported: nothing was left in it
    refine ⟨⟨rest, h.source_eq, h.running, ?_, ?_, by simpa [move, report] using h.worker_lt⟩,
      by simp [report]⟩
    · rw [List.perm_iff_count]
      intro x
      have := haccounted x
      simpa only [move, report, hset, List.flatMap_append, List.flatMap_cons, Stage.pending,
        Nat.sub_eq_zero_of_le hend, List.range'_zero] using this
    · intro outcome hmem
      simp only [move, report, hset, List.mem_append, List.mem_cons] at hmem
      exact hexhausted outcome (by simpa using hmem)
  · -- a node is processed: it goes from the worker to the trace
    have hworker := (Array.getElem?_eq_some_iff.mp hstage).1
    refine ⟨⟨rest, h.source_eq, h.running, ?_, ?_, ?_⟩, by simp⟩
    · rw [List.perm_iff_count]
      intro x
      have := haccounted x
      simp only [move, hset, List.flatMap_append, List.flatMap_cons, List.count_append,
        Stage.pending_working hlt processed (processed + 1), Array.toList_push, List.map_append,
        List.map_cons, List.map_nil, List.count_cons, List.count_nil] at this ⊢
      omega
    · intro outcome hmem
      simp only [move, hset, List.mem_append, List.mem_cons] at hmem
      exact hexhausted outcome (by simpa using hmem)
    · intro v hv
      simp only [move, Array.toList_push, List.mem_append, List.mem_singleton,
        Array.size_setIfInBounds] at hv ⊢
      rcases hv with hv | rfl
      · exact h.worker_lt v hv
      · exact hworker

/-- A run loses no node and adds none. -/
theorem Covers.run (h : c.Covers all rest) (hdone : ∀ before node, task before node = .done)
    (schedule : List Nat) :
    (∃ left, (c.run task schedule).Covers all left) ∧
      (c.run task schedule).stages.size = c.stages.size := by
  induction schedule generalizing c rest with
  | nil => exact ⟨⟨rest, h⟩, rfl⟩
  | cons worker schedule ih =>
    obtain ⟨⟨left, hcovers⟩, hsize⟩ := h.step hdone worker
    obtain ⟨hrun, hruns⟩ := ih hcovers
    exact ⟨hrun, hruns.trans hsize⟩

theorem covers_new (workers : Nat) (partitions : List Partition) (progress : Progress) :
    (new workers (.partitions partitions) false progress).Covers
      (partitions.flatMap Partition.nodes) partitions := by
  refine ⟨rfl, rfl, ?_, ?_, by simp [new]⟩
  · have hpending : (Array.replicate workers Stage.asking).toList.flatMap Stage.pending = [] := by
      rw [List.flatMap_eq_nil_iff]
      intro stage hstage
      rw [Array.toList_replicate] at hstage
      rw [List.eq_of_mem_replicate hstage]
      rfl
    simp only [new, hpending, List.map_nil, List.nil_append]
    exact .refl _
  · intro outcome hmem
    rw [new, Array.toList_replicate] at hmem
    exact absurd (List.eq_of_mem_replicate hmem) (by simp)

theorem finished_iff : c.finished = true ↔
    ∀ stage ∈ c.stages.toList, ∃ outcome, stage = Stage.finished outcome := by
  rw [finished, ← Array.all_toList, List.all_eq_true]
  refine forall₂_congr fun stage _ => ?_
  cases stage <;> simp

/-- When all workers are back, all nodes have been visited. -/
theorem Covers.handsOut (h : c.Covers all rest) (hworkers : 0 < c.stages.size)
    (hfinished : c.finished = true) :
    (c.visits.toList.map Visit.node).Perm all ∧ ∀ v ∈ c.visits.toList, v.worker < c.stages.size := by
  rw [finished_iff] at hfinished
  have hpending : c.stages.toList.flatMap Stage.pending = [] := by
    rw [List.flatMap_eq_nil_iff]
    intro stage hstage
    obtain ⟨outcome, rfl⟩ := hfinished stage hstage
    rfl
  have hrest : rest = [] := by
    have hmem : c.stages[0] ∈ c.stages.toList := Array.getElem_mem_toList hworkers
    obtain ⟨outcome, heq⟩ := hfinished _ hmem
    exact h.exhausted outcome (heq ▸ hmem)
  have haccounted := h.accounted
  rw [hpending, hrest, List.flatMap_nil, List.append_nil, List.append_nil] at haccounted
  exact ⟨haccounted, h.worker_lt⟩

/-- **Partitions are handed out once.**  In whatever order the workers take their steps: when all of them
are back, every node has been visited once. -/
theorem handsOut_of_run (pool : Pool) (nodeCount concurrency : Nat) (progress : Progress)
    (hdone : ∀ before node, task before node = .done) (schedule : List Nat)
    (hfinished : ((forPartitions pool (rangePartition nodeCount concurrency) false progress).run task
      schedule).finished = true) :
    HandsOut nodeCount
      (max (min pool.concurrency (rangePartition nodeCount concurrency).length) 1)
      ((forPartitions pool (rangePartition nodeCount concurrency) false progress).run task
        schedule).visits.toList := by
  have hnew := covers_new (max (min pool.concurrency (rangePartition nodeCount concurrency).length) 1)
    (rangePartition nodeCount concurrency) progress
  obtain ⟨⟨left, hcovers⟩, hsize⟩ := hnew.run hdone schedule
  rw [size_stages_new] at hsize
  rw [flatMap_nodes_rangePartition] at hcovers
  obtain ⟨hnodes, hworkers⟩ := hcovers.handsOut (by rw [hsize]; omega) hfinished
  exact ⟨hnodes, fun v hv => hsize ▸ hworkers v hv⟩

/-! ### One worker after the other -/

/-- The steps that are enough for a worker to come back, as long as nobody else takes steps. -/
def debt (rest : List Partition) : Stage → Nat
  | .asking => (Source.partitions rest).budget
  | .working node stop _ => (stop - node) + 1 + (Source.partitions rest).budget
  | .finished _ => 0

theorem budget_cons (p : Partition) (others : List Partition) :
    (Source.partitions (p :: others)).budget = p.count + 2 + (Source.partitions others).budget := by
  have hsum : ∀ (rest : List Partition) (first : Nat),
      rest.foldl (fun total p => total + (p.count + 2)) first =
        first + (rest.map fun p => p.count + 2).sum := by
    intro rest
    induction rest with
    | nil => simp
    | cons q rest ih =>
      intro first
      rw [List.foldl_cons, ih, List.map_cons, List.sum_cons, Nat.add_assoc]
  rw [Source.budget, Source.budget, hsum, hsum, List.map_cons, List.sum_cons]
  omega

/-- A step of a worker that is not back lowers its debt and leaves the others where they are. -/
theorem step_debt (hdone : ∀ before node, task before node = .done) (hsource : c.source = .partitions rest)
    (hrunning : c.stopped = false) {stage : Stage} (hstage : c.stages[worker]? = some stage)
    (hback : ∀ outcome, stage ≠ .finished outcome) :
    ∃ later left, (c.step task worker).stages[worker]? = some later ∧
      (c.step task worker).source = .partitions left ∧ (c.step task worker).stopped = false ∧
      debt left later < debt rest stage ∧
      (Source.partitions left).budget ≤ (Source.partitions rest).budget ∧
      ∀ other, other ≠ worker → (c.step task worker).stages[other]? = c.stages[other]? := by
  have hlt := (Array.getElem?_eq_some_iff.mp hstage).1
  have hmoved : ∀ (moved : Crew) (later : Stage), moved.stages = c.stages →
      (moved.move worker later).stages[worker]? = some later ∧
        ∀ other, other ≠ worker → (moved.move worker later).stages[other]? = c.stages[other]? := by
    intro moved later heq
    simp only [move, heq]
    refine ⟨by simp [hlt], fun other hne => ?_⟩
    rw [Array.getElem?_setIfInBounds_ne (Ne.symm hne)]
  rcases step_cases_partitions hdone hsource hrunning worker with
    ⟨-, hfinished⟩ | ⟨p, others, hasking, rfl, heq⟩ | ⟨hasking, rfl, heq⟩ |
    ⟨node, stop, processed, hworking, hend, heq⟩ | ⟨node, stop, processed, hworking, hnode, heq⟩
  · obtain ⟨outcome, heq⟩ := hfinished stage hstage
    exact absurd heq (hback outcome)
  · obtain rfl := Option.some.inj (hasking.symm.trans hstage)
    obtain ⟨hown, hothers⟩ := hmoved { c with source := .partitions others }
      (.working p.start p.stop 0) rfl
    rw [heq]
    refine ⟨_, others, hown, rfl, hrunning, ?_, ?_, hothers⟩
    · simp only [debt, budget_cons, Partition.stop]
      omega
    · rw [budget_cons]
      omega
  · obtain rfl := Option.some.inj (hasking.symm.trans hstage)
    obtain ⟨hown, hothers⟩ := hmoved c (.finished (.value ())) rfl
    rw [heq]
    exact ⟨_, [], hown, hsource, hrunning, by simp [debt, Source.budget], le_rfl, hothers⟩
  · obtain rfl := Option.some.inj (hworking.symm.trans hstage)
    obtain ⟨hown, hothers⟩ := hmoved (c.report processed) .asking rfl
    rw [heq]
    refine ⟨_, rest, hown, hsource, hrunning, ?_, le_rfl, hothers⟩
    simp only [debt]
    omega
  · obtain rfl := Option.some.inj (hworking.symm.trans hstage)
    obtain ⟨hown, hothers⟩ := hmoved { c with visits := c.visits.push ⟨worker, node⟩ }
      (.working (node + 1) stop (processed + 1)) rfl
    rw [heq]
    refine ⟨_, rest, hown, hsource, hrunning, ?_, le_rfl, hothers⟩
    simp only [debt]
    omega

/-- A worker that may take as many steps as it owes comes back, and the others stay where they are. -/
theorem runWorker_spec (hdone : ∀ before node, task before node = .done) (steps : Nat) :
    ∀ {c : Crew} {rest : List Partition} {stage : Stage}, c.source = .partitions rest →
      c.stopped = false → c.stages[worker]? = some stage → debt rest stage ≤ steps →
      ∃ schedule left outcome, c.runWorker task worker steps = c.run task schedule ∧
        (c.run task schedule).source = .partitions left ∧ (c.run task schedule).stopped = false ∧
        (Source.partitions left).budget ≤ (Source.partitions rest).budget ∧
        (c.run task schedule).stages[worker]? = some (.finished outcome) ∧
        ∀ other, other ≠ worker → (c.run task schedule).stages[other]? = c.stages[other]? := by
  induction steps with
  | zero =>
    intro c rest stage hsource hrunning hstage hdebt
    cases stage with
    | finished outcome =>
      exact ⟨[], rest, outcome, rfl, hsource, hrunning, le_rfl, hstage, fun _ _ => rfl⟩
    | asking =>
      cases rest with
      | nil => simp [debt, Source.budget] at hdebt
      | cons p others =>
        rw [debt, budget_cons] at hdebt
        omega
    | working node stop processed =>
      rw [debt] at hdebt
      omega
  | succ steps ih =>
    intro c rest stage hsource hrunning hstage hdebt
    by_cases hback : ∃ outcome, stage = .finished outcome
    · obtain ⟨outcome, rfl⟩ := hback
      refine ⟨[], rest, outcome, ?_, hsource, hrunning, le_rfl, hstage, fun _ _ => rfl⟩
      simp only [runWorker, hstage]
      rfl
    · push Not at hback
      obtain ⟨later, left, hlater, hleft, hstill, hlower, hbudget, hothers⟩ :=
        step_debt hdone hsource hrunning hstage hback
      obtain ⟨schedule, last, outcome, hrun, hend⟩ := ih hleft hstill hlater (by omega)
      have hunfold : c.runWorker task worker (steps + 1) =
          (c.step task worker).runWorker task worker steps := by
        rw [runWorker, hstage]
        cases stage with
        | finished outcome => exact absurd rfl (hback outcome)
        | asking => rfl
        | working node stop processed => rfl
      refine ⟨worker :: schedule, last, outcome, hunfold.trans hrun, hend.1, hend.2.1,
        hend.2.2.1.trans hbudget, hend.2.2.2.1, fun other hne => ?_⟩
      exact (hend.2.2.2.2 other hne).trans (hothers other hne)

theorem run_append (first second : List Nat) :
    c.run task (first ++ second) = (c.run task first).run task second := List.foldl_append

/-- Workers that may all take as many steps as the first of them owes come back one after the other. -/
theorem foldl_runWorker_spec (hdone : ∀ before node, task before node = .done) {steps : Nat}
    {workers : List Nat} (hnodup : workers.Nodup) :
    ∀ {c : Crew} {rest : List Partition}, c.source = .partitions rest → c.stopped = false →
      (Source.partitions rest).budget ≤ steps → (∀ w ∈ workers, c.stages[w]? = some .asking) →
      ∃ schedule, workers.foldl (fun c w => c.runWorker task w steps) c = c.run task schedule ∧
        (∀ w ∈ workers, ∃ outcome, (c.run task schedule).stages[w]? = some (.finished outcome)) ∧
        ∀ w, w ∉ workers → (c.run task schedule).stages[w]? = c.stages[w]? := by
  induction workers with
  | nil => exact fun _ _ _ _ => ⟨[], rfl, by simp, fun _ _ => rfl⟩
  | cons worker workers ih =>
    intro c rest hsource hrunning hbudget hasking
    obtain ⟨hnew, hothers⟩ := List.nodup_cons.mp hnodup
    obtain ⟨first, left, outcome, hrun, hleft, hstill, hlower, hback, hstay⟩ :=
      runWorker_spec hdone steps hsource hrunning (hasking worker List.mem_cons_self) hbudget
    obtain ⟨second, hruns, hbacks, hstays⟩ := ih hothers hleft hstill (hlower.trans hbudget) (by
      intro w hw
      rw [hstay w (fun heq => hnew (heq ▸ hw))]
      exact hasking w (List.mem_cons_of_mem _ hw))
    refine ⟨first ++ second, ?_, ?_, ?_⟩
    · rw [List.foldl_cons, hrun, hruns, run_append]
    · intro w hw
      rw [run_append]
      rcases List.mem_cons.mp hw with rfl | hw
      · exact ⟨outcome, (hstays w hnew).trans hback⟩
      · exact hbacks w hw
    · intro w hw
      rw [List.mem_cons, not_or] at hw
      rw [run_append, hstays w hw.2, hstay w hw.1]

/-- In the run of a crew in which one worker goes on after the other, every worker comes back. -/
theorem exists_settle_eq_run (hdone : ∀ before node, task before node = .done) (workers : Nat)
    (partitions : List Partition) (progress : Progress) :
    ∃ schedule, (new workers (.partitions partitions) false progress).settle task =
        (new workers (.partitions partitions) false progress).run task schedule ∧
      ((new workers (.partitions partitions) false progress).run task schedule).finished = true := by
  obtain ⟨schedule, hrun, hback, hstay⟩ := foldl_runWorker_spec hdone (List.nodup_range (n := workers))
    (c := new workers (.partitions partitions) false progress) rfl rfl le_rfl (by
      intro w hw
      rw [new, Array.getElem?_replicate, if_pos (List.mem_range.mp hw)])
  refine ⟨schedule, ?_, finished_iff.mpr fun stage hstage => ?_⟩
  · rw [settle, size_stages_new]
    exact hrun
  · obtain ⟨w, hw, rfl⟩ := List.getElem_of_mem hstage
    have hsize := ((covers_new workers partitions progress).run hdone schedule).2
    rw [size_stages_new] at hsize
    obtain ⟨outcome, hfinished⟩ := hback w (List.mem_range.mpr (by
      rw [Array.length_toList] at hw
      omega))
    refine ⟨outcome, ?_⟩
    rw [Array.getElem?_eq_some_iff] at hfinished
    exact hfinished.2

/-- **The run that an analysis takes hands out all nodes.** -/
theorem handsOut_trace (pool : Pool) (nodeCount concurrency : Nat) (progress : Progress) :
    HandsOut nodeCount
      (max (min pool.concurrency (rangePartition nodeCount concurrency).length) 1)
      ((forPartitions pool (rangePartition nodeCount concurrency) false progress).trace none) ∧
    ((forPartitions pool (rangePartition nodeCount concurrency) false progress).handOut
      none).stopped = false := by
  have hdone : ∀ before node, StopAfter.task none before node = .done := fun _ _ => rfl
  have hbegin : (forPartitions pool (rangePartition nodeCount concurrency) false progress).handOut none =
      (forPartitions pool (rangePartition nodeCount concurrency) false progress).settle
        (StopAfter.task none) := rfl
  obtain ⟨schedule, hrun, hfinished⟩ := exists_settle_eq_run hdone
    (max (min pool.concurrency (rangePartition nodeCount concurrency).length) 1)
    (rangePartition nodeCount concurrency) progress
  rw [trace, hbegin, forPartitions, hrun]
  refine ⟨handsOut_of_run pool nodeCount concurrency progress hdone schedule hfinished, ?_⟩
  obtain ⟨⟨left, hcovers⟩, -⟩ := (covers_new _ _ progress).run hdone schedule
  exact hcovers.running

end Crew

/-! ## States of workers -/

/-- A worker's turn changes the worker's state and the shared one. -/
theorem onWorker_eq {σ τ : Type} (f : σ → τ → σ × τ) (front : List σ) (state : σ) (back : List σ)
    (shared : τ) :
    onWorker f front.length (front ++ state :: back) shared =
      (front ++ (f state shared).1 :: back, (f state shared).2) := by
  induction front with
  | nil => rfl
  | cons other front ih => simp only [List.length_cons, List.cons_append, onWorker, ih]

/-- Along a trace, what every turn keeps of a worker's state is kept of all of them; what a turn does to
the shared state whoever takes it, is done for all visits in order; and what it adds to the worker's own
account is added to the accounts together. -/
theorem foldl_onWorker {σ τ : Type} {f : Nat → σ → τ → σ × τ} {keeps : σ → Prop}
    {effect : Nat → τ → τ} {account : σ → Nat} {gain : Nat → Nat}
    {trace : List Visit} (hturn : ∀ v ∈ trace, ∀ state shared, keeps state →
      keeps (f v.node state shared).1 ∧ (f v.node state shared).2 = effect v.node shared ∧
      account (f v.node state shared).1 = account state + gain v.node)
    {own : List σ} (hown : ∀ state ∈ own, keeps state)
    (hworkers : ∀ v ∈ trace, v.worker < own.length) (shared : τ) :
    let result := trace.foldl (fun (own, shared) v => onWorker (f v.node) v.worker own shared) (own, shared)
    result.2 = (trace.map Visit.node).foldl (fun shared node => effect node shared) shared ∧
      (result.1.map account).sum =
        (own.map account).sum + ((trace.map Visit.node).map gain).sum := by
  induction trace generalizing own shared with
  | nil => exact ⟨rfl, by simp⟩
  | cons v trace ih =>
    have hlt := hworkers v List.mem_cons_self
    have hsplit : own = own.take v.worker ++ own[v.worker] :: own.drop (v.worker + 1) := by
      rw [List.getElem_cons_drop, List.take_append_drop]
    have hfront : (own.take v.worker).length = v.worker := by
      rw [List.length_take]
      omega
    generalize own.take v.worker = front at hsplit hfront
    generalize own[v.worker] = state at hsplit
    generalize own.drop (v.worker + 1) = back at hsplit
    subst hsplit
    obtain ⟨hkeeps, heffect, haccount⟩ := hturn v List.mem_cons_self state shared (hown state (by simp))
    have hturned : onWorker (f v.node) v.worker (front ++ state :: back) shared =
        (front ++ (f v.node state shared).1 :: back, effect v.node shared) := by
      rw [← hfront, onWorker_eq, heffect]
    have hlater : ∀ other ∈ front ++ (f v.node state shared).1 :: back, keeps other := by
      intro other hother
      rcases List.mem_append.mp hother with hother | hother
      · exact hown other (by simp [hother])
      · rcases List.mem_cons.mp hother with rfl | hother
        · exact hkeeps
        · exact hown other (by simp [hother])
    have hlength : ∀ w ∈ trace, w.worker < (front ++ (f v.node state shared).1 :: back).length := by
      intro w hw
      simpa using hworkers w (List.mem_cons_of_mem _ hw)
    obtain ⟨hshared, hsum⟩ := ih (fun w hw => hturn w (List.mem_cons_of_mem _ hw)) hlater hlength
      (effect v.node shared)
    simp only [List.foldl_cons, hturned]
    refine ⟨hshared, hsum.trans ?_⟩
    simp only [List.map_append, List.map_cons, List.sum_append, List.sum_cons, haccount]
    omega

theorem foldl_add_eq_sum {α : Type} (f : α → Nat) (xs : List α) (first : Nat) :
    xs.foldl (fun total x => total + f x) first = first + (xs.map f).sum := by
  induction xs generalizing first with
  | nil => rfl
  | cons x xs ih => rw [List.foldl_cons, ih, List.map_cons, List.sum_cons, Nat.add_assoc]

/-- Where the workers share nothing, what every turn adds to the worker's own account is added to the
accounts together. -/
theorem sum_foldl_modify {σ M : Type} [AddCommMonoid M] {f : Nat → σ → σ} {account : σ → M} {gain : Nat → M}
    (hturn : ∀ node state, account (f node state) = account state + gain node) {trace : List Visit}
    {own : Array σ} (hworkers : ∀ v ∈ trace, v.worker < own.size) :
    ((trace.foldl (fun own v => own.modify v.worker (f v.node)) own).toList.map account).sum =
      (own.toList.map account).sum + ((trace.map Visit.node).map gain).sum := by
  induction trace generalizing own with
  | nil => simp
  | cons v trace ih =>
    have hlt : v.worker < own.toList.length := hworkers v List.mem_cons_self
    have hsplit : own.toList =
        own.toList.take v.worker ++ own.toList[v.worker] :: own.toList.drop (v.worker + 1) := by
      rw [List.getElem_cons_drop, List.take_append_drop]
    have hturned : ((own.modify v.worker (f v.node)).toList.map account).sum =
        (own.toList.map account).sum + gain v.node := by
      rw [Array.toList_modify, List.modify_eq_take_cons_drop hlt]
      conv_rhs => rw [hsplit]
      simp only [List.map_append, List.map_cons, List.sum_append, List.sum_cons, hturn]
      rw [add_right_comm, add_assoc, add_assoc, add_assoc]
    have hlater : ∀ w ∈ trace, w.worker < (own.modify v.worker (f v.node)).size := by
      intro w hw
      rw [Array.size_modify]
      exact hworkers w (List.mem_cons_of_mem _ hw)
    rw [List.foldl_cons, ih hlater, hturned, List.map_cons, List.map_cons, List.sum_cons, add_assoc]

end PackedGraph
