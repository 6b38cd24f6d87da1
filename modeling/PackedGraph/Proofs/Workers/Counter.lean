import PackedGraph.Proofs.Workers.Batches

/-!
# A counter that wraps around

A counter goes up with every claim, also with one that finds nothing, and begins again when it has passed
the largest word.  So what a crew visits is not decided by the node count alone: the claims are numbered,
the number of a claim says what it gets, and claims go on until every worker has found nothing once.
Whatever the order of the steps, the nodes of these claims are the nodes that are visited.

Every node is visited once just in case none of the last claims comes back below the node count, which is
`CounterClears`.

Main statements: `Crew.Tally.run` for what every run keeps, `Crew.exists_finished` for the end of all runs,
and `balanced_once_iff`.
-/

namespace PackedGraph

/-! ## Claims by number -/

/-- Where the counter stands at a claim. -/
def counterAt (batch claim : Nat) : Nat := claim * batch % counterLimit

/-- The nodes that a claim gets: a batch from where the counter stands, as far as there are nodes. -/
def claimed (nodeCount batch claim : Nat) : List Nat :=
  List.range' (counterAt batch claim)
    (min (counterAt batch claim + batch) nodeCount - counterAt batch claim)

/-- Whether a claim finds nothing. -/
def misses (nodeCount batch claim : Nat) : Bool := decide (nodeCount ≤ counterAt batch claim)

/-- The nodes of so many claims. -/
def claimedBefore (nodeCount batch claims : Nat) : List Nat :=
  (List.range claims).flatMap (claimed nodeCount batch)

/-- How many of so many claims find nothing. -/
def missesBefore (nodeCount batch claims : Nat) : Nat := (List.range claims).countP (misses nodeCount batch)

/-- Behind the last tile the counter does not come back below the node count before so many claims have
found nothing. -/
def CounterClears (nodeCount batch workers : Nat) : Prop :=
  ∀ extra < workers, nodeCount ≤ counterAt batch (ceilDiv nodeCount batch + extra)

instance (nodeCount batch workers : Nat) : Decidable (CounterClears nodeCount batch workers) :=
  inferInstanceAs (Decidable (∀ extra < workers, _))

variable {nodeCount batch claim claims workers : Nat}

theorem claimed_of_misses (h : misses nodeCount batch claim = true) : claimed nodeCount batch claim = [] := by
  have hle : nodeCount ≤ counterAt batch claim := of_decide_eq_true h
  rw [claimed, show min (counterAt batch claim + batch) nodeCount - counterAt batch claim = 0 by omega,
    List.range'_zero]

theorem claimedBefore_succ (nodeCount batch claims : Nat) :
    claimedBefore nodeCount batch (claims + 1) =
      claimedBefore nodeCount batch claims ++ claimed nodeCount batch claims := by
  rw [claimedBefore, List.range_succ, List.flatMap_append, List.flatMap_singleton]
  rfl

theorem missesBefore_succ (nodeCount batch claims : Nat) :
    missesBefore nodeCount batch (claims + 1) =
      missesBefore nodeCount batch claims + if misses nodeCount batch claims then 1 else 0 := by
  rw [missesBefore, List.range_succ, List.countP_append, List.countP_singleton]
  rfl

theorem missesBefore_mono (nodeCount batch : Nat) {fewer : Nat} (h : fewer ≤ claims) :
    missesBefore nodeCount batch fewer ≤ missesBefore nodeCount batch claims :=
  (List.range_sublist.mpr h).countP_le

/-- What the counter hands out depends on the number of the claim only. -/
theorem claim_numbered (nodeCount batch claim : Nat) :
    (Source.counter (UInt64.ofNat (claim * batch)) batch nodeCount).claim =
      (if misses nodeCount batch claim then none
        else some (counterAt batch claim, min (counterAt batch claim + batch) nodeCount),
        .counter (UInt64.ofNat ((claim + 1) * batch)) batch nodeCount) := by
  have hstands : (UInt64.ofNat (claim * batch)).toNat = counterAt batch claim := UInt64.toNat_ofNat'
  simp only [Source.claim, hstands, misses, decide_eq_true_eq, Nat.succ_mul, UInt64.ofNat_add]

/-! ### Up to the last tile -/

/-- Up to the last tile the counter has not wrapped around. -/
theorem counterAt_of_lt (hbatch : 0 < batch) (hnodes : nodeCount ≤ counterLimit)
    (h : claim < ceilDiv nodeCount batch) :
    counterAt batch claim = claim * batch ∧ claim * batch < nodeCount := by
  have hlt := (lt_ceilDiv_iff hbatch).mp h
  exact ⟨Nat.mod_eq_of_lt (Nat.lt_of_lt_of_le hlt hnodes), hlt⟩

/-- The first claims get the tiles, which are all nodes. -/
theorem claimedBefore_tiles (hbatch : 0 < batch) (hnodes : nodeCount ≤ counterLimit) :
    claimedBefore nodeCount batch (ceilDiv nodeCount batch) = List.range nodeCount := by
  rw [← flatMap_nodes_tiles hbatch, tiles, List.flatMap_map, claimedBefore]
  refine List.flatMap_congr fun claim hclaim => ?_
  obtain ⟨hat, hlt⟩ := counterAt_of_lt hbatch hnodes (List.mem_range.mp hclaim)
  rw [claimed, hat, Partition.nodes_eq]
  simp only
  congr 1
  omega

/-- None of them finds nothing, so what is missed is missed behind them. -/
theorem missesBefore_le (hbatch : 0 < batch) (hnodes : nodeCount ≤ counterLimit) (claims : Nat) :
    missesBefore nodeCount batch claims ≤ claims - ceilDiv nodeCount batch := by
  induction claims with
  | zero => exact Nat.zero_le _
  | succ claims ih =>
    rw [missesBefore_succ]
    by_cases hinside : claims < ceilDiv nodeCount batch
    · obtain ⟨hat, hlt⟩ := counterAt_of_lt hbatch hnodes hinside
      have hmiss : misses nodeCount batch claims = false := by
        rw [misses, hat]
        exact decide_eq_false (Nat.not_le.mpr hlt)
      rw [hmiss]
      simp only [Bool.false_eq_true, if_false]
      omega
    · split <;> omega

/-- Where the counter clears, all claims behind the tiles find nothing. -/
theorem CounterClears.missesBefore_eq (h : CounterClears nodeCount batch workers) (hbatch : 0 < batch)
    (hnodes : nodeCount ≤ counterLimit) {extra : Nat} (hextra : extra ≤ workers) :
    missesBefore nodeCount batch (ceilDiv nodeCount batch + extra) = extra := by
  induction extra with
  | zero =>
    have := missesBefore_le hbatch hnodes (ceilDiv nodeCount batch)
    rw [Nat.add_zero]
    omega
  | succ extra ih =>
    have hmiss : misses nodeCount batch (ceilDiv nodeCount batch + extra) = true :=
      decide_eq_true (h extra hextra)
    rw [← Nat.add_assoc, missesBefore_succ, hmiss, if_pos rfl, ih (Nat.le_of_succ_le hextra)]

/-- A crew with few enough workers and short enough batches never sees the counter wrap around. -/
theorem counterClears_of_le (hbatch : 0 < batch)
    (h : nodeCount + (workers + 1) * batch ≤ counterLimit) : CounterClears nodeCount batch workers := by
  intro extra hextra
  have hlower := @le_ceilDiv_mul nodeCount batch hbatch
  have hupper : ceilDiv nodeCount batch * batch < nodeCount + batch := by
    rw [ceilDiv]
    have := Nat.div_mul_le_self (nodeCount + batch - 1) batch
    omega
  have hstep : extra * batch ≤ workers * batch := Nat.mul_le_mul_right _ (Nat.le_of_lt hextra)
  rw [Nat.succ_mul] at h
  rw [counterAt, Nat.add_mul, Nat.mod_eq_of_lt (by omega)]
  omega

/-! ## What a run keeps -/

/-- The nodes that a worker has processed and not reported. -/
def Stage.unreported : Stage → Nat
  | .working _ _ processed => processed
  | _ => 0

/-- The steps that a worker takes until it is in front of the next claim or back. -/
def Stage.stepsLeft : Stage → Nat
  | .asking => 1
  | .working node stop _ => stop - node + 2
  | .finished _ => 0

namespace Crew

variable {c : Crew} {task : Task} {worker earlier : Nat}

theorem done_report (c : Crew) (processed : Nat) :
    (c.report processed).progress.done = c.progress.done + processed := by
  rw [report, Progress.report]
  by_cases hzero : processed = 0
  · simp [hzero]
  · rw [if_neg hzero]
    simp only
    split
    · rfl
    · split <;> rfl

/-- A crew whose workers have made so many claims, which had processed so many nodes before. -/
structure Tally (nodeCount batch claims earlier : Nat) (c : Crew) : Prop where
  /-- The counter has gone up with every claim. -/
  source_eq : c.source = .counter (UInt64.ofNat (claims * batch)) batch nodeCount
  /-- Nobody has asked the crew to stop. -/
  running : c.stopped = false
  /-- What is visited and what the workers hold are the nodes of the claims. -/
  accounted : (c.visits.toList.map Visit.node ++ c.stages.toList.flatMap Stage.pending).Perm
    (claimedBefore nodeCount batch claims)
  /-- A worker is back for every claim that has found nothing. -/
  back_eq : c.backCount = missesBefore nodeCount batch claims
  /-- A claim is made only while somebody is not back. -/
  needed : ∀ claim < claims, missesBefore nodeCount batch claim < c.stages.size
  /-- What is visited is reported, or will be. -/
  reported : c.progress.done + (c.stages.toList.map Stage.unreported).sum = earlier + c.visits.size
  /-- Only the workers visit. -/
  worker_lt : ∀ v ∈ c.visits.toList, v.worker < c.stages.size

theorem tally_new (workers nodeCount batch : Nat) (progress : Progress) :
    (new workers (.counter 0 batch nodeCount) false progress).Tally nodeCount batch 0 progress.done := by
  have hasking : ∀ stage ∈ (Array.replicate workers Stage.asking).toList, stage = .asking := by
    intro stage hstage
    rw [Array.toList_replicate] at hstage
    exact List.eq_of_mem_replicate hstage
  refine ⟨by rw [Nat.zero_mul]; rfl, rfl, ?_, ?_, by simp, ?_, by simp [new]⟩
  · have hpending : (Array.replicate workers Stage.asking).toList.flatMap Stage.pending = [] :=
      List.flatMap_eq_nil_iff.mpr fun stage hstage => by rw [hasking stage hstage]; rfl
    simp only [new, hpending]
    exact .refl _
  · rw [backCount, missesBefore, List.range_zero, List.countP_nil, List.countP_eq_zero]
    intro stage hstage
    rw [hasking stage hstage]
    exact Bool.false_ne_true
  · have hnone : ((Array.replicate workers Stage.asking).toList.map Stage.unreported).sum = 0 := by
      simp [Stage.unreported]
    simp only [new, hnone]
    rfl

/-- A worker moves on, perhaps after a claim: what the worker gives up is visited or reported, what the worker
takes on is claimed. -/
theorem Tally.of_move {moved : Crew} {stage later : Stage} {after : Nat} (h : c.Tally nodeCount batch claims earlier)
    (hstage : c.stages[worker]? = some stage) (hback : stage.back = false) (hstages : moved.stages = c.stages)
    (hsource : moved.source = .counter (UInt64.ofNat (after * batch)) batch nodeCount)
    (hrunning : moved.stopped = false)
    (hnodes : (moved.visits.toList.map Visit.node ++ later.pending ++ claimedBefore nodeCount batch claims).Perm
      (c.visits.toList.map Visit.node ++ stage.pending ++ claimedBefore nodeCount batch after))
    (hmisses : missesBefore nodeCount batch after =
      missesBefore nodeCount batch claims + if later.back then 1 else 0)
    (hneeded : ∀ claim < after, missesBefore nodeCount batch claim < c.stages.size)
    (hreported : moved.progress.done + later.unreported + c.visits.size =
      c.progress.done + stage.unreported + moved.visits.size)
    (hworkers : ∀ v ∈ moved.visits.toList, v.worker < c.stages.size) :
    (moved.move worker later).Tally nodeCount batch after earlier := by
  obtain ⟨front, rear, hsplit, -, hset⟩ := exists_split hstage
  constructor
  case source_eq => exact hsource
  case running => exact hrunning
  case accounted =>
    have haccounted := h.accounted
    rw [hsplit, List.perm_iff_count] at haccounted
    rw [List.perm_iff_count] at hnodes ⊢
    intro x
    have hbefore := haccounted x
    have hmoved := hnodes x
    simp only [move, hstages, hset, List.flatMap_append, List.flatMap_cons, List.count_append]
      at hbefore hmoved ⊢
    omega
  case back_eq => rw [backCount_move hstages hstage hback, h.back_eq, hmisses]
  case needed => simpa [move, hstages] using hneeded
  case reported =>
    have hbefore := h.reported
    rw [hsplit] at hbefore
    simp only [move, hstages, hset, List.map_append, List.map_cons, List.sum_append, List.sum_cons]
      at hbefore ⊢
    omega
  case worker_lt => simpa [move, hstages] using hworkers

/-- A claim is made only by a worker who is not back. -/
theorem Tally.needed_succ (h : c.Tally nodeCount batch claims earlier) (hstage : c.stages[worker]? = some .asking) :
    ∀ claim < claims + 1, missesBefore nodeCount batch claim < c.stages.size := by
  intro claim hclaim
  rcases Nat.lt_succ_iff_lt_or_eq.mp hclaim with hclaim | rfl
  · exact h.needed claim hclaim
  · exact h.back_eq ▸ backCount_lt hstage rfl

/-- A claim gets its nodes. -/
theorem Tally.claim_nodes (h : c.Tally nodeCount batch claims earlier) (hstage : c.stages[worker]? = some .asking)
    {start stop : Nat} {source : Source} (hclaim : c.source.claim = (some (start, stop), source)) :
    ({ c with source := source }.move worker (.working start stop 0)).Tally nodeCount batch (claims + 1) earlier := by
  rw [h.source_eq, claim_numbered, Prod.mk.injEq] at hclaim
  obtain ⟨hgot, rfl⟩ := hclaim
  have hmiss : misses nodeCount batch claims = false := by
    by_contra hmiss
    rw [if_pos (by simpa using hmiss)] at hgot
    exact absurd hgot (by simp)
  rw [hmiss] at hgot
  obtain ⟨rfl, rfl⟩ := Prod.mk.inj (Option.some.inj hgot)
  refine h.of_move hstage rfl rfl rfl h.running ?_ ?_ (h.needed_succ hstage) rfl h.worker_lt
  · simp only [claimedBefore_succ, Stage.pending, List.append_nil, List.append_assoc]
    exact List.perm_append_comm.append_left _
  · rw [missesBefore_succ, hmiss]
    rfl

/-- A claim finds nothing, and the worker is back. -/
theorem Tally.claim_nothing (h : c.Tally nodeCount batch claims earlier)
    (hstage : c.stages[worker]? = some .asking) {source : Source} (hclaim : c.source.claim = (none, source)) :
    ({ c with source := source }.move worker (.finished (.value ()))).Tally nodeCount batch (claims + 1) earlier := by
  rw [h.source_eq, claim_numbered, Prod.mk.injEq] at hclaim
  obtain ⟨hgot, rfl⟩ := hclaim
  have hmiss : misses nodeCount batch claims = true := by
    by_contra hmiss
    rw [if_neg hmiss] at hgot
    exact absurd hgot (by simp)
  refine h.of_move hstage rfl rfl rfl h.running ?_ ?_ (h.needed_succ hstage) rfl h.worker_lt
  · rw [claimedBefore_succ, claimed_of_misses hmiss, List.append_nil]
    exact .refl _
  · rw [missesBefore_succ, hmiss]
    rfl

/-- A batch is reported. -/
theorem Tally.report_batch (h : c.Tally nodeCount batch claims earlier) {node stop processed : Nat}
    (hstage : c.stages[worker]? = some (.working node stop processed)) (hend : stop ≤ node) :
    ((c.report processed).move worker .asking).Tally nodeCount batch claims earlier := by
  refine h.of_move hstage rfl rfl h.source_eq h.running ?_ rfl h.needed ?_ h.worker_lt
  · simp only [Stage.pending, Nat.sub_eq_zero_of_le hend, List.range'_zero]
    exact .refl _
  · rw [done_report]
    rfl

/-- A node is processed. -/
theorem Tally.process_node (h : c.Tally nodeCount batch claims earlier) {node stop processed : Nat}
    (hstage : c.stages[worker]? = some (.working node stop processed)) (hlt : node < stop) :
    ({ c with visits := c.visits.push ⟨worker, node⟩ }.move worker
      (.working (node + 1) stop (processed + 1))).Tally nodeCount batch claims earlier := by
  refine h.of_move hstage rfl rfl h.source_eq h.running ?_ rfl h.needed ?_ ?_
  · rw [Stage.pending_working hlt processed (processed + 1), Array.toList_push, List.map_append, List.append_assoc,
      List.append_assoc, List.append_assoc]
    exact .refl _
  · simp only [Array.size_push, Stage.unreported]
    omega
  · intro v hv
    rw [Array.toList_push, List.mem_append, List.mem_singleton] at hv
    rcases hv with hv | rfl
    · exact h.worker_lt v hv
    · exact (Array.getElem?_eq_some_iff.mp hstage).1

/-- A claim takes the next number, a node goes from the worker to the trace, a report from the worker to
the progress: no step loses anything. -/
theorem Tally.step (h : c.Tally nodeCount batch claims earlier)
    (hdone : ∀ before node, task before node = .done) (worker : Nat) :
    (c.step task worker).Tally nodeCount batch
      (if c.stages[worker]? = some .asking then claims + 1 else claims) earlier := by
  rcases step_cases hdone h.running worker with
    ⟨heq, hback⟩ | ⟨start, stop, source, hstage, hclaim, heq⟩ | ⟨source, hstage, hclaim, heq⟩ |
    ⟨node, stop, processed, hstage, hend, heq⟩ | ⟨node, stop, processed, hstage, hlt, heq⟩
  · rw [heq, if_neg]
    · exact h
    · intro hasking
      obtain ⟨outcome, houtcome⟩ := hback _ hasking
      exact absurd houtcome (by simp)
  · rw [heq, if_pos hstage]
    exact h.claim_nodes hstage hclaim
  · rw [heq, if_pos hstage]
    exact h.claim_nothing hstage hclaim
  · rw [heq, hstage, if_neg (by simp)]
    exact h.report_batch hstage hend
  · rw [heq, hstage, if_neg (by simp)]
    exact h.process_node hstage hlt

theorem Tally.run (h : c.Tally nodeCount batch claims earlier)
    (hdone : ∀ before node, task before node = .done) (schedule : List Nat) :
    (∃ claims', (c.run task schedule).Tally nodeCount batch claims' earlier) ∧
      (c.run task schedule).stages.size = c.stages.size := by
  induction schedule generalizing c claims with
  | nil => exact ⟨⟨claims, h⟩, rfl⟩
  | cons worker schedule ih =>
    obtain ⟨hrun, hruns⟩ := ih (h.step hdone worker)
    exact ⟨hrun, hruns.trans (size_stages_step task worker c)⟩

/-- When all workers are back, what is visited are the nodes of all claims up to the one by which the last
worker found nothing. -/
theorem Tally.of_finished (h : c.Tally nodeCount batch claims earlier) (hfinished : c.finished = true) :
    (c.visits.toList.map Visit.node).Perm (claimedBefore nodeCount batch claims) ∧
      missesBefore nodeCount batch claims = c.stages.size ∧
      c.progress.done = earlier + c.visits.size := by
  rw [finished_iff] at hfinished
  have hpending : c.stages.toList.flatMap Stage.pending = [] := by
    rw [List.flatMap_eq_nil_iff]
    intro stage hstage
    obtain ⟨outcome, rfl⟩ := hfinished stage hstage
    rfl
  have hunreported : (c.stages.toList.map Stage.unreported).sum = 0 := by
    refine List.sum_eq_zero fun count hcount => ?_
    obtain ⟨stage, hstage, rfl⟩ := List.mem_map.mp hcount
    obtain ⟨outcome, rfl⟩ := hfinished stage hstage
    rfl
  have hback : c.backCount = c.stages.size := by
    rw [backCount, ← Array.length_toList, List.countP_eq_length]
    intro stage hstage
    obtain ⟨outcome, rfl⟩ := hfinished stage hstage
    rfl
  have haccounted := h.accounted
  have hreported := h.reported
  rw [hpending, List.append_nil] at haccounted
  rw [hunreported, Nat.add_zero] at hreported
  exact ⟨haccounted, h.back_eq ▸ hback, hreported⟩

/-! ## Every run comes to an end -/

/-- Where the counter clears, nobody claims once every worker could have found nothing. -/
theorem Tally.claims_lt (h : c.Tally nodeCount batch claims earlier) (hbatch : 0 < batch)
    (hnodes : nodeCount ≤ counterLimit) (hclears : CounterClears nodeCount batch c.stages.size)
    (hasking : c.stages[worker]? = some .asking) : claims < ceilDiv nodeCount batch + c.stages.size := by
  have hless := backCount_lt hasking rfl
  have hall := hclears.missesBefore_eq hbatch hnodes (Nat.le_refl _)
  by_contra hge
  have := missesBefore_mono nodeCount batch (Nat.le_of_not_lt hge)
  have := h.back_eq
  omega

/-- The steps that are left at most: for every claim those through its batch, and those that the workers
still take. -/
def stepsLeft (nodeCount batch claims : Nat) (c : Crew) : Nat :=
  (ceilDiv nodeCount batch + c.stages.size - claims) * (batch + 3) +
    (c.stages.toList.map Stage.stepsLeft).sum

/-- Every step of a worker that is not back lowers the steps that are left. -/
theorem Tally.stepsLeft_step (h : c.Tally nodeCount batch claims earlier) (hbatch : 0 < batch)
    (hnodes : nodeCount ≤ counterLimit) (hclears : CounterClears nodeCount batch c.stages.size)
    (hdone : ∀ before node, task before node = .done) {stage : Stage}
    (hstage : c.stages[worker]? = some stage) (hback : stage.back = false) :
    stepsLeft nodeCount batch (if c.stages[worker]? = some .asking then claims + 1 else claims)
      (c.step task worker) < stepsLeft nodeCount batch claims c := by
  have hsize := size_stages_step task worker c
  obtain ⟨front, back, hstages, -, hset⟩ := exists_split hstage
  have hclaim : stage = .asking →
      (ceilDiv nodeCount batch + c.stages.size - (claims + 1)) * (batch + 3) + (batch + 3) =
        (ceilDiv nodeCount batch + c.stages.size - claims) * (batch + 3) := by
    rintro rfl
    have := h.claims_lt hbatch hnodes hclears hstage
    rw [← Nat.succ_mul]
    congr 1
    omega
  rw [stepsLeft, stepsLeft, hsize, hstages]
  rcases step_cases hdone h.running worker with
    ⟨-, hfinished⟩ | ⟨start, stop, source, hasking, hclaimed, heq⟩ | ⟨source, hasking, -, heq⟩ |
    ⟨node, stop, processed, hworking, hend, heq⟩ | ⟨node, stop, processed, hworking, hlt, heq⟩
  · obtain ⟨outcome, rfl⟩ := hfinished stage hstage
    exact absurd hback (by simp [Stage.back])
  · obtain rfl := Option.some.inj (hstage.symm.trans hasking)
    have := hclaim rfl
    have hlength : stop - start ≤ batch := by
      rw [h.source_eq, claim_numbered, Prod.mk.injEq] at hclaimed
      split at hclaimed
      · exact absurd hclaimed.1 (by simp)
      · obtain ⟨rfl, rfl⟩ := Prod.mk.inj (Option.some.inj hclaimed.1)
        omega
    rw [if_pos hasking, heq]
    simp only [move, hset, List.map_append, List.map_cons, List.sum_append, List.sum_cons,
      Stage.stepsLeft]
    omega
  · obtain rfl := Option.some.inj (hstage.symm.trans hasking)
    have := hclaim rfl
    rw [if_pos hasking, heq]
    simp only [move, hset, List.map_append, List.map_cons, List.sum_append, List.sum_cons,
      Stage.stepsLeft]
    omega
  · obtain rfl := Option.some.inj (hstage.symm.trans hworking)
    rw [if_neg (by simp [hworking]), heq]
    simp only [move, report, hset, List.map_append, List.map_cons, List.sum_append, List.sum_cons,
      Stage.stepsLeft]
    omega
  · obtain rfl := Option.some.inj (hstage.symm.trans hworking)
    rw [if_neg (by simp [hworking]), heq]
    simp only [move, hset, List.map_append, List.map_cons, List.sum_append, List.sum_cons,
      Stage.stepsLeft]
    omega

/-- A worker is not back, unless all are. -/
theorem finished_or_exists (c : Crew) : c.finished = true ∨
    ∃ (worker : Nat) (stage : Stage), c.stages[worker]? = some stage ∧ stage.back = false := by
  by_cases hfinished : c.finished = true
  · exact .inl hfinished
  · right
    rw [finished_iff] at hfinished
    push Not at hfinished
    obtain ⟨stage, hstage, hback⟩ := hfinished
    obtain ⟨worker, hworker⟩ := List.mem_iff_getElem?.mp hstage
    rw [Array.getElem?_toList] at hworker
    refine ⟨worker, stage, hworker, ?_⟩
    cases stage with
    | finished outcome => exact absurd rfl (hback outcome)
    | asking => rfl
    | working node stop processed => rfl

/-- Where the counter clears, the workers can always go on until all of them are back. -/
theorem Tally.exists_finished (hbatch : 0 < batch) (hnodes : nodeCount ≤ counterLimit)
    (hdone : ∀ before node, task before node = .done) (steps : Nat) :
    ∀ {c : Crew} {claims : Nat}, c.Tally nodeCount batch claims earlier →
      CounterClears nodeCount batch c.stages.size → stepsLeft nodeCount batch claims c ≤ steps →
      ∃ schedule, (c.run task schedule).finished = true := by
  induction steps with
  | zero =>
    intro c claims h hclears hsteps
    rcases finished_or_exists c with hfinished | ⟨worker, stage, hstage, hback⟩
    · exact ⟨[], hfinished⟩
    · have := h.stepsLeft_step hbatch hnodes hclears hdone hstage hback
      omega
  | succ steps ih =>
    intro c claims h hclears hsteps
    rcases finished_or_exists c with hfinished | ⟨worker, stage, hstage, hback⟩
    · exact ⟨[], hfinished⟩
    · have := h.stepsLeft_step hbatch hnodes hclears hdone hstage hback
      obtain ⟨schedule, hrun⟩ := ih (h.step hdone worker) (by rwa [size_stages_step]) (by omega)
      exact ⟨worker :: schedule, hrun⟩

/-! ## Once, or more often -/

/-- The claims behind the tiles. -/
theorem claimedBefore_add (hbatch : 0 < batch) (hnodes : nodeCount ≤ counterLimit) (more : Nat) :
    claimedBefore nodeCount batch (ceilDiv nodeCount batch + more) = List.range nodeCount ++
      (List.range more).flatMap fun extra => claimed nodeCount batch (ceilDiv nodeCount batch + extra) := by
  rw [← claimedBefore_tiles hbatch hnodes, claimedBefore, claimedBefore, List.range_add,
    List.flatMap_append, List.flatMap_map]

/-- When all workers are back, there have been more claims than tiles, one at least for every worker. -/
theorem Tally.exists_extra (h : c.Tally nodeCount batch claims earlier) (hbatch : 0 < batch)
    (hnodes : nodeCount ≤ counterLimit) (hworkers : 0 < c.stages.size) (hfinished : c.finished = true) :
    ∃ more, claims = ceilDiv nodeCount batch + more ∧ c.stages.size ≤ more := by
  have hmisses := (h.of_finished hfinished).2.1
  have hle := missesBefore_le hbatch hnodes claims
  exact ⟨claims - ceilDiv nodeCount batch, by omega, by omega⟩

/-- Where the counter clears, a crew that is back has visited every node once. -/
theorem Tally.handsOut (h : c.Tally nodeCount batch claims earlier) (hbatch : 0 < batch)
    (hnodes : nodeCount ≤ counterLimit) (hworkers : 0 < c.stages.size)
    (hclears : CounterClears nodeCount batch c.stages.size) (hfinished : c.finished = true) :
    HandsOut nodeCount c.stages.size c.visits.toList ∧ c.progress.done = earlier + nodeCount := by
  obtain ⟨hvisits, -, hprogress⟩ := h.of_finished hfinished
  obtain ⟨more, rfl, -⟩ := h.exists_extra hbatch hnodes hworkers hfinished
  have hnone : ((List.range more).flatMap fun extra =>
      claimed nodeCount batch (ceilDiv nodeCount batch + extra)) = [] := by
    rw [List.flatMap_eq_nil_iff]
    intro extra hextra
    have hneeded := h.needed (ceilDiv nodeCount batch + extra)
      (Nat.add_lt_add_left (List.mem_range.mp hextra) _)
    -- if every worker had found nothing before this claim, nobody would have made it
    have hless : extra < c.stages.size := by
      by_contra hge
      have hall := hclears.missesBefore_eq hbatch hnodes (Nat.le_refl _)
      have := missesBefore_mono nodeCount batch
        (Nat.add_le_add_left (Nat.le_of_not_lt hge) (ceilDiv nodeCount batch))
      omega
    exact claimed_of_misses (decide_eq_true (hclears extra hless))
  rw [claimedBefore_add hbatch hnodes, hnone, List.append_nil] at hvisits
  have hsize : c.visits.size = nodeCount := by
    have := hvisits.length_eq
    rwa [List.length_map, Array.length_toList, List.length_range] at this
  exact ⟨⟨hvisits, h.worker_lt⟩, hsize ▸ hprogress⟩

/-- Where it does not clear, a crew that is back has visited some node once more. -/
theorem Tally.counterClears (h : c.Tally nodeCount batch claims earlier) (hbatch : 0 < batch)
    (hnodes : nodeCount ≤ counterLimit) (hworkers : 0 < c.stages.size) (hfinished : c.finished = true)
    (honce : (c.visits.toList.map Visit.node).Perm (List.range nodeCount)) :
    CounterClears nodeCount batch c.stages.size := by
  intro extra hextra
  obtain ⟨hvisits, -, -⟩ := h.of_finished hfinished
  obtain ⟨more, rfl, hmore⟩ := h.exists_extra hbatch hnodes hworkers hfinished
  rw [claimedBefore_add hbatch hnodes] at hvisits
  by_contra hback
  have hagain : counterAt batch (ceilDiv nodeCount batch + extra) ∈
      (List.range more).flatMap fun extra => claimed nodeCount batch (ceilDiv nodeCount batch + extra) := by
    refine List.mem_flatMap.mpr ⟨extra, List.mem_range.mpr (Nat.lt_of_lt_of_le hextra hmore), ?_⟩
    rw [claimed, List.mem_range']
    exact ⟨0, by omega, by omega⟩
  -- the tiles are all nodes already, so there is nothing behind them
  have hlength := (honce.symm.trans hvisits).length_eq
  have hpositive := List.length_pos_of_mem hagain
  rw [List.length_append] at hlength
  omega

/-- A crew for batches keeps its tally, whatever steps its workers take. -/
theorem tally_forBatches (pool : Pool) {nodeCount batch : Nat} (hbatch : 0 < batch) (progress : Progress)
    {task : Task} (hdone : ∀ before node, task before node = .done) (schedule : List Nat) :
    (∃ claims, ((forBatches pool nodeCount batch false progress).run task schedule).Tally nodeCount batch
        claims progress.done) ∧
      ((forBatches pool nodeCount batch false progress).run task schedule).stages.size =
        pool.concurrency := by
  rw [forBatches, Nat.max_eq_left hbatch]
  obtain ⟨hrun, hsize⟩ := (tally_new pool.concurrency nodeCount batch progress).run hdone schedule
  exact ⟨hrun, hsize.trans (size_stages_new ..)⟩

/-- Whatever steps the workers of a crew with few enough workers and short enough batches take until all of
them are back, they have visited every node once. -/
theorem handsOut_of_run_batches (pool : Pool) {nodeCount batch : Nat} (hbatch : 0 < batch)
    (hlimit : nodeCount + (pool.concurrency + 1) * batch ≤ counterLimit) (progress : Progress) {task : Task}
    (hdone : ∀ before node, task before node = .done) (schedule : List Nat)
    (hfinished : ((forBatches pool nodeCount batch false progress).run task schedule).finished = true) :
    HandsOut nodeCount pool.concurrency
      ((forBatches pool nodeCount batch false progress).run task schedule).visits.toList := by
  obtain ⟨⟨claims, hrun⟩, hsize⟩ := tally_forBatches pool hbatch progress hdone schedule
  have hclears := counterClears_of_le hbatch hlimit
  rw [← hsize] at hclears ⊢
  exact (hrun.handsOut hbatch (Nat.le_of_add_right_le hlimit) (hsize ▸ pool.positive) hclears hfinished).1

end Crew

/-- **A balanced crew visits every node once just in case its counter clears.**  As long as no tile ends
beyond the largest word: where the counter does not come back below the node count before every worker has
found nothing, the workers can always go on until they are back, and in whatever order they took their
steps, they have then visited every node once and reported as many nodes as there are.  Where it comes back,
this is not so. -/
theorem balanced_once_iff (pool : Pool) {nodeCount batch : Nat} (hbatch : 0 < batch)
    (hfit : ceilDiv nodeCount batch * batch < counterLimit) (progress : Progress) {task : Task}
    (hdone : ∀ before node, task before node = .done) :
    CounterClears nodeCount batch pool.concurrency ↔
      (∀ schedule, ∃ more, ((Crew.forBatches pool nodeCount batch false progress).run task
        (schedule ++ more)).finished = true) ∧
      ∀ schedule,
        ((Crew.forBatches pool nodeCount batch false progress).run task schedule).finished = true →
        HandsOut nodeCount pool.concurrency
            ((Crew.forBatches pool nodeCount batch false progress).run task schedule).visits.toList ∧
          ((Crew.forBatches pool nodeCount batch false progress).run task schedule).progress.done =
            progress.done + nodeCount := by
  have hnodes : nodeCount ≤ counterLimit := (le_ceilDiv_mul hbatch).trans hfit.le
  constructor
  · intro hclears
    refine ⟨fun schedule => ?_, fun schedule hfinished => ?_⟩
    · obtain ⟨⟨claims, hrun⟩, hsize⟩ := Crew.tally_forBatches pool hbatch progress hdone schedule
      obtain ⟨more, hmore⟩ := hrun.exists_finished hbatch hnodes hdone _ (hsize ▸ hclears) (Nat.le_refl _)
      exact ⟨more, by rwa [Crew.run_append]⟩
    · obtain ⟨⟨claims, hrun⟩, hsize⟩ := Crew.tally_forBatches pool hbatch progress hdone schedule
      rw [← hsize] at hclears ⊢
      exact hrun.handsOut hbatch hnodes (hsize ▸ pool.positive) hclears hfinished
  · rintro ⟨hend, honce⟩
    obtain ⟨schedule, hfinished⟩ := hend []
    obtain ⟨⟨claims, hrun⟩, hsize⟩ := Crew.tally_forBatches pool hbatch progress hdone ([] ++ schedule)
    rw [← hsize]
    exact hrun.counterClears hbatch hnodes (hsize ▸ pool.positive) hfinished (honce _ hfinished).1.nodes

/-- Four workers with batches of the largest word: each of them finds nothing once. -/
theorem balanced_once_with_largest_batches :
    0 < largestWord ∧ ceilDiv 50 largestWord * largestWord < counterLimit ∧
      CounterClears 50 largestWord 4 ∧
      ∃ schedule, ((Crew.forBatches ⟨4, by decide⟩ 50 largestWord false (.new "balanced" 50 10)).run
          (StopAfter.task none) schedule).finished = true ∧
        (((Crew.forBatches ⟨4, by decide⟩ 50 largestWord false (.new "balanced" 50 10)).run
          (StopAfter.task none) schedule).visits.toList.map Visit.node).Perm (List.range 50) ∧
        ((Crew.forBatches ⟨4, by decide⟩ 50 largestWord false (.new "balanced" 50 10)).run
          (StopAfter.task none) schedule).progress.done = 50 := by
  have hclears : CounterClears 50 largestWord 4 := by decide
  have hdone : ∀ before node, StopAfter.task none before node = .done := fun _ _ => rfl
  obtain ⟨hend, honce⟩ := (balanced_once_iff ⟨4, by decide⟩ (by decide) (by decide)
    (.new "balanced" 50 10) hdone).mp hclears
  obtain ⟨schedule, hfinished⟩ := hend []
  obtain ⟨hvisits, hprogress⟩ := honce _ hfinished
  exact ⟨by decide, by decide, hclears, [] ++ schedule, hfinished, hvisits.nodes, hprogress⟩

/-- Two workers with batches of half the words: the counter is back at the first node when the first of them
has found nothing, so every node is visited twice and reported twice. -/
theorem balanced_twice_when_counter_wraps :
    ((Crew.forBatches ⟨2, by decide⟩ 3 9223372036854775808 false (.new "balanced" 3 10)).settle
        (StopAfter.task none)).finished = true ∧
      ((Crew.forBatches ⟨2, by decide⟩ 3 9223372036854775808 false (.new "balanced" 3 10)).settle
        (StopAfter.task none)).visits.toList.map Visit.node = [0, 1, 2, 0, 1, 2] ∧
      ((Crew.forBatches ⟨2, by decide⟩ 3 9223372036854775808 false (.new "balanced" 3 10)).settle
        (StopAfter.task none)).progress.done = 6 := by
  decide +kernel

end PackedGraph
