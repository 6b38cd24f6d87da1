import Mathlib.Data.List.Nodup
import PackedGraph.Proofs.Workers.Batches

/-!
# No node is processed twice

A task may fail, a worker may break down and the crew may be asked to stop: then nodes are left out.  But
whatever happens, the nodes that have been processed, those that workers hold and those that are left to claim are
together no more than all nodes, because no step of a worker puts a node into two of these places.

Main statements: `Crew.Within.step` for one step, and `Crew.nodup_visits_batches` for a run in batches.
-/

namespace PackedGraph.Crew

variable {c : Crew} {all : List Nat} {rest : List Partition} {worker : Nat}

/-- A crew in front of partitions, in whose hands no node is more often than among the given ones. -/
structure Within (c : Crew) (all : List Nat) (rest : List Partition) : Prop where
  /-- The partitions that are left to claim. -/
  source_eq : c.source = .partitions rest
  /-- What is visited, what the workers hold and what is left are no more than all nodes. -/
  accounted : ∀ node, (c.visits.toList.map Visit.node).count node +
    (c.stages.toList.flatMap Stage.pending).count node + (rest.flatMap Partition.nodes).count node ≤ all.count node

theorem within_new (workers : Nat) (partitions : List Partition) (stopped : Bool) (progress : Progress) :
    (new workers (.partitions partitions) stopped progress).Within (partitions.flatMap Partition.nodes)
      partitions where
  source_eq := rfl
  accounted node := by
    have hpending : (List.replicate workers Stage.asking).flatMap Stage.pending = [] :=
      List.flatMap_eq_nil_iff.mpr fun stage hstage => List.eq_of_mem_replicate hstage ▸ rfl
    simp [new, hpending]

/-- A worker may move as long as nothing new gets into anybody's hands by that. -/
theorem Within.move (h : c.Within all rest) {stage later : Stage} (hstage : c.stages[worker]? = some stage)
    {moved : Crew} (hstages : moved.stages = c.stages) {left : List Partition}
    (hsource : moved.source = .partitions left)
    (hcount : ∀ node, (moved.visits.toList.map Visit.node).count node + later.pending.count node +
        (left.flatMap Partition.nodes).count node ≤
      (c.visits.toList.map Visit.node).count node + stage.pending.count node +
        (rest.flatMap Partition.nodes).count node) :
    (moved.move worker later).Within all left := by
  obtain ⟨front, back, hsplit, -, hset⟩ := exists_split hstage
  refine ⟨hsource, fun node => ?_⟩
  have haccounted := h.accounted node
  have hnode := hcount node
  rw [hsplit] at haccounted
  simp only [Crew.move, hstages, hset, List.flatMap_append, List.flatMap_cons, List.count_append] at haccounted ⊢
  omega

/-- No step puts a node into anybody's hands twice. -/
theorem Within.step (h : c.Within all rest) (task : Task) (worker : Nat) :
    ∃ left, (c.step task worker).Within all left := by
  rcases hstage : c.stages[worker]? with - | ⟨- | ⟨node, stop, processed⟩ | outcome⟩
  · exact ⟨rest, by simpa only [Crew.step, hstage] using h⟩
  · -- the nodes of a partition go from the source to the worker
    have hclaimed : ∀ {left : List Partition} {later : Stage}, (∀ node, later.pending.count node +
          (left.flatMap Partition.nodes).count node ≤ (rest.flatMap Partition.nodes).count node) →
        ({ c with source := .partitions left }.move worker later).Within all left := by
      intro left later hcount
      refine @Within.move c all rest worker h .asking later hstage { c with source := .partitions left } rfl left rfl
        fun node => ?_
      rw [show Stage.asking.pending = [] from rfl, List.count_nil]
      have hnode := hcount node
      dsimp only
      omega
    simp only [Crew.step, hstage, h.source_eq]
    cases rest with
    | nil => exact ⟨[], hclaimed fun _ => Nat.le_refl _⟩
    | cons p others =>
      refine ⟨others, hclaimed fun node => ?_⟩
      simp only [Stage.pending, Partition.nodes_eq, Partition.stop, Nat.add_sub_cancel_left, List.flatMap_cons,
        List.count_append]
      omega
  · have hdropped : ∀ {moved : Crew} {later : Stage}, moved.stages = c.stages → moved.source = c.source →
        moved.visits = c.visits → later.pending = [] → (moved.move worker later).Within all rest := by
      intro moved later hstages hsource hvisits hpending
      refine h.move hstage hstages (hsource.trans h.source_eq) fun other => ?_
      rw [hvisits, hpending, List.count_nil]
      omega
    refine ⟨rest, ?_⟩
    simp only [Crew.step, hstage]
    by_cases hend : stop ≤ node
    · rw [if_pos hend]
      exact hdropped rfl rfl rfl rfl
    rw [if_neg hend]
    by_cases hstopped : c.stopped = true
    · rw [if_pos hstopped]
      exact hdropped rfl rfl rfl rfl
    rw [if_neg hstopped]
    -- a node that is processed goes from the worker to the trace
    have hvisited : ∀ {moved : Crew}, moved.stages = c.stages → moved.source = c.source →
        moved.visits = c.visits.push ⟨worker, node⟩ →
        (moved.move worker (.working (node + 1) stop (processed + 1))).Within all rest := by
      intro moved hstages hsource hvisits
      refine h.move hstage hstages (hsource.trans h.source_eq) fun other => ?_
      simp only [hvisits, Stage.pending_working (Nat.lt_of_not_le hend) processed (processed + 1),
        Array.toList_push, List.map_append, List.map_cons, List.map_nil, List.count_append, List.count_cons,
        List.count_nil]
      omega
    cases task c.visits.size node with
    | done => exact hvisited rfl rfl rfl
    | doneAndStop => exact hvisited rfl rfl rfl
    | failed cause => exact hdropped rfl rfl rfl rfl
    | panicked payload => exact hdropped rfl rfl rfl rfl
  · exact ⟨rest, by simpa only [Crew.step, hstage] using h⟩

/-- Among distinct nodes, what is visited is distinct. -/
theorem Within.nodup_visits (h : c.Within all rest) (hall : all.Nodup) :
    (c.visits.toList.map Visit.node).Nodup := by
  rw [List.nodup_iff_count_le_one] at hall ⊢
  intro node
  have haccounted := h.accounted node
  have hone := hall node
  omega

/-- **A run in batches processes no node twice**, whatever comes of the nodes, and whether it is asked to stop
before or meanwhile, as long as the counter does not wrap around. -/
theorem nodup_visits_batches (pool : Pool) (nodeCount batch : Nat) (stopped : Bool) (progress : Progress)
    (stop : StopAfter) (task : Task) (hlimit : nodeCount + pool.concurrency * max batch 1 ≤ counterLimit) :
    ((((forBatches pool nodeCount batch stopped progress).begin stop).settle task).visits.toList.map
      Visit.node).Nodup := by
  have hbatch : 0 < max batch 1 := by omega
  have hkept := @settle_induction ((forBatches pool nodeCount batch stopped progress).begin stop) task
    (fun d => ∃ index other left, Counts nodeCount (max batch 1) index d other ∧
      other.stages.size = pool.concurrency ∧ other.Within (List.range nodeCount) left) ?_ ?_
  · obtain ⟨index, other, left, hcounts, -, hwithin⟩ := hkept
    rw [hcounts.eq]
    exact hwithin.nodup_visits List.nodup_range
  · rintro d worker ⟨index, other, left, hcounts, hsize, hwithin⟩
    obtain ⟨index', hnext⟩ := hcounts.step hbatch (by rw [hsize]; exact hlimit) task worker
    obtain ⟨left', hleft⟩ := hwithin.step task worker
    exact ⟨index', _, left', hnext, by rw [size_stages_step, hsize], hleft⟩
  · have hwithin := within_new pool.concurrency (tiles nodeCount (max batch 1)) (stopped || stop.reached 0) progress
    rw [flatMap_nodes_tiles hbatch] at hwithin
    refine ⟨0, _, _, ⟨?_, rfl, Nat.zero_le _⟩, size_stages_new .., hwithin⟩
    rw [Nat.zero_mul]
    rfl

end PackedGraph.Crew
