import PackedGraph.Proofs.Workers.Counter

/-!
# Breaking down

A worker that breaks down at a node processes nothing any more, and stays where it is.  Until then a crew is
as far as one whose task is always done.  So a crew that has to process a node at which workers break down
fails with what one of them leaves behind, in whatever order the workers take their steps.

Main statements: `Crew.outcome_of_run_breaking` for every order of the steps, and
`Crew.outcome_settle_breaking` for one worker after the other.
-/

namespace PackedGraph

/-- The task of workers who break down at the nodes that do not fit. -/
def Task.breaking (fits : Nat → Bool) (payload : Payload) : Task := fun _ node =>
  if fits node then .done else .panicked payload

namespace Crew

variable {c d : Crew} {fits : Nat → Bool} {payload : Payload} {nodeCount batch : Nat}

/-! ## Staying broken -/

/-- A worker has broken down. -/
def Broken (payload : Payload) (c : Crew) : Prop := Stage.finished (.panicked payload) ∈ c.stages.toList

/-- Who is back stays back. -/
theorem getElem?_step_of_finished {other : Nat} {outcome : Outcome Unit}
    (h : c.stages[other]? = some (.finished outcome)) (task : Task) (worker : Nat) :
    (c.step task worker).stages[other]? = some (.finished outcome) := by
  by_cases hother : other = worker
  · subst hother
    simp only [step, h]
  · have hmove : ∀ (moved : Crew) (stage : Stage), moved.stages = c.stages →
        (moved.move worker stage).stages[other]? = some (.finished outcome) := by
      intro moved stage heq
      rw [move, heq, Array.getElem?_setIfInBounds_ne (Ne.symm hother), h]
    rw [step]
    split
    · split <;> exact hmove _ _ rfl
    · split
      · exact hmove _ _ rfl
      · split
        · exact hmove _ _ rfl
        · dsimp only
          split <;> exact hmove _ _ rfl
    · exact h
    · exact h

theorem Broken.step (h : c.Broken payload) (task : Task) (worker : Nat) :
    (c.step task worker).Broken payload := by
  obtain ⟨other, hother⟩ := List.mem_iff_getElem?.mp h
  rw [Array.getElem?_toList] at hother
  have hstays := getElem?_step_of_finished hother task worker
  rw [← Array.getElem?_toList] at hstays
  exact List.mem_of_getElem? hstays

theorem Broken.run (h : c.Broken payload) (task : Task) (schedule : List Nat) :
    (c.run task schedule).Broken payload :=
  run_induction (fun _ worker hbroken => hbroken.step task worker) h schedule

theorem Broken.runWorker (h : c.Broken payload) (task : Task) (worker steps : Nat) :
    (c.runWorker task worker steps).Broken payload := by
  induction steps generalizing c with
  | zero => exact h
  | succ steps ih =>
    rw [Crew.runWorker]
    split
    · exact h
    · exact h
    · exact ih (h.step task worker)

/-! ## Until somebody breaks down -/

/-- A crew is as far as another one, and what is processed fits. -/
structure KeepsUp (fits : Nat → Bool) (c d : Crew) : Prop where
  /-- Both crews have done the same. -/
  eq : c = d
  /-- Every node that is processed fits. -/
  fits : ∀ v ∈ d.visits.toList, fits v.node = true

/-- A step breaks a worker down, or does what it does in a crew whose task is always done. -/
theorem KeepsUp.step (h : KeepsUp fits c d) (payload : Payload) (worker : Nat) :
    KeepsUp fits (c.step (Task.breaking fits payload) worker) (d.step (StopAfter.task none) worker) ∨
      (c.step (Task.breaking fits payload) worker).Broken payload := by
  obtain ⟨rfl, hfits⟩ := h
  rcases hstage : c.stages[worker]? with - | ⟨- | ⟨node, stop, processed⟩ | outcome⟩
  · left
    simp only [Crew.step, hstage]
    exact ⟨rfl, hfits⟩
  · left
    simp only [Crew.step, hstage]
    split <;> exact ⟨rfl, hfits⟩
  · by_cases hend : stop ≤ node
    · left
      simp only [Crew.step, hstage, if_pos hend]
      exact ⟨rfl, hfits⟩
    by_cases hstopped : c.stopped = true
    · left
      simp only [Crew.step, hstage, if_neg hend, if_pos hstopped]
      exact ⟨rfl, hfits⟩
    have halways : StopAfter.task none c.visits.size node = .done := rfl
    simp only [Crew.step, hstage, if_neg hend, if_neg hstopped, halways]
    cases hnode : fits node with
    | true =>
      have hdone : Task.breaking fits payload c.visits.size node = .done := if_pos hnode
      simp only [hdone]
      refine .inl ⟨rfl, fun v hv => ?_⟩
      rw [move, Array.toList_push, List.mem_append, List.mem_singleton] at hv
      rcases hv with hv | rfl
      · exact hfits v hv
      · exact hnode
    | false =>
      have hpanicked : Task.breaking fits payload c.visits.size node = .panicked payload :=
        if_neg (by simp [hnode])
      simp only [hpanicked]
      right
      obtain ⟨front, back, -, -, hset⟩ := exists_split hstage
      rw [Broken, move, hset]
      exact List.mem_append_right _ List.mem_cons_self
  · left
    simp only [Crew.step, hstage]
    exact ⟨rfl, hfits⟩

theorem KeepsUp.run (h : KeepsUp fits c d) (payload : Payload) (schedule : List Nat) :
    KeepsUp fits (c.run (Task.breaking fits payload) schedule) (d.run (StopAfter.task none) schedule) ∨
      (c.run (Task.breaking fits payload) schedule).Broken payload := by
  induction schedule generalizing c d with
  | nil => exact .inl h
  | cons worker schedule ih =>
    rcases h.step payload worker with hnext | hbroken
    · exact ih hnext
    · exact .inr (hbroken.run _ schedule)

theorem KeepsUp.runWorker (h : KeepsUp fits c d) (payload : Payload) (worker steps : Nat) :
    KeepsUp fits (c.runWorker (Task.breaking fits payload) worker steps)
        (d.runWorker (StopAfter.task none) worker steps) ∨
      (c.runWorker (Task.breaking fits payload) worker steps).Broken payload := by
  induction steps generalizing c d with
  | zero => exact .inl h
  | succ steps ih =>
    obtain rfl := h.eq
    rw [Crew.runWorker, Crew.runWorker]
    split
    · exact .inl h
    · exact .inl h
    · rcases h.step payload worker with hnext | hbroken
      · exact ih hnext
      · exact .inr (hbroken.runWorker _ worker steps)

theorem KeepsUp.settle (h : KeepsUp fits c d) (payload : Payload) :
    KeepsUp fits (c.settle (Task.breaking fits payload)) (d.settle (StopAfter.task none)) ∨
      (c.settle (Task.breaking fits payload)).Broken payload := by
  obtain rfl := h.eq
  rw [Crew.settle, Crew.settle]
  generalize List.range c.stages.size = order
  induction order using List.reverseRecOn with
  | nil => exact .inl h
  | append_singleton order worker ih =>
    rw [List.foldl_append, List.foldl_append]
    rcases ih with hnext | hbroken
    · exact hnext.runWorker payload worker _
    · exact .inr (hbroken.runWorker _ worker _)

/-! ## What comes of it -/

/-- Workers come back empty-handed, or broken. -/
def EmptyOrBroken (payload : Payload) (outcome : Outcome Unit) : Prop :=
  outcome = .value () ∨ outcome = .panicked payload

theorem returns_step_breaking (fits : Nat → Bool) (h : c.Returns (EmptyOrBroken payload)) (worker : Nat) :
    (c.step (Task.breaking fits payload) worker).Returns (EmptyOrBroken payload) := by
  refine h.step (.inl rfl) (fun before node cause hfailed => ?_) (fun before node payload' hpanicked => ?_) worker
  · rw [Task.breaking] at hfailed
    split at hfailed <;> cases hfailed
  · rw [Task.breaking] at hpanicked
    split at hpanicked
    · cases hpanicked
    · exact .inr (congrArg Outcome.panicked (TaskResult.panicked.inj hpanicked).symm)

/-- A crew with a broken worker fails with what the worker leaves behind. -/
theorem Broken.outcome_eq (h : c.Broken payload) (hreturns : c.Returns (EmptyOrBroken payload)) :
    c.outcome = .error (.workerFailed payload.message) := by
  cases houtcome : c.outcome with
  | error cause =>
    obtain ⟨outcome, rfl | rfl, hsettle⟩ := hreturns.exists_of_outcome_eq_error houtcome
    · cases hsettle
    · exact congrArg Except.error (Except.error.inj hsettle).symm
  | ok results =>
    obtain ⟨worker, hworker⟩ := List.mem_iff_getElem?.mp h
    obtain ⟨result, hresult⟩ := exists_of_mapM_eq_ok houtcome ((List.mergeSort_perm _ _).mem_iff.mpr
      (List.mem_map_of_mem (List.mk_mem_zipIdx_iff_getElem?.mpr hworker)))
    cases hresult

/-- Where every node below the node count is processed, all of them fit. -/
theorem KeepsUp.fits_of_handsOut (h : KeepsUp fits c d) {workers : Nat}
    (hhandsOut : HandsOut nodeCount workers d.visits.toList) {node : Nat} (hnode : node < nodeCount) :
    fits node = true := by
  obtain ⟨v, hv, rfl⟩ := List.mem_map.mp (hhandsOut.nodes.mem_iff.mpr (List.mem_range.mpr hnode))
  exact h.fits v hv

theorem keepsUp_forBatches (fits : Nat → Bool) (pool : Pool) (nodeCount batch : Nat) (progress : Progress) :
    KeepsUp fits (forBatches pool nodeCount batch false progress) (forBatches pool nodeCount batch false progress) :=
  ⟨rfl, by simp [forBatches, new]⟩

theorem returns_forBatches {allowed : Outcome Unit → Prop} (pool : Pool) (nodeCount batch : Nat)
    (progress : Progress) : (forBatches pool nodeCount batch false progress).Returns allowed := by
  rw [forBatches]
  exact returns_new _ _ _ _

/-- Where all nodes fit, nobody breaks down. -/
theorem breaking_of_forall (h : ∀ node, fits node = true) (payload : Payload) :
    Task.breaking fits payload = StopAfter.task none := by
  funext before node
  exact if_pos (h node)

/-- **In whatever order the workers take their steps until all of them are back:** if all nodes fit, they have
processed every node once and come back with success, and if one does not, they fail. -/
theorem outcome_of_run_breaking (pool : Pool) (hbatch : 0 < batch)
    (hlimit : nodeCount + (pool.concurrency + 1) * batch ≤ counterLimit) (progress : Progress)
    {schedule : List Nat} (hfinished : ((forBatches pool nodeCount batch false progress).run
      (Task.breaking fits payload) schedule).finished = true) :
    ((∀ node, fits node = true) →
      HandsOut nodeCount pool.concurrency ((forBatches pool nodeCount batch false progress).run
        (Task.breaking fits payload) schedule).visits.toList ∧
      ∃ results, ((forBatches pool nodeCount batch false progress).run
        (Task.breaking fits payload) schedule).outcome = .ok results) ∧
    ((∃ node < nodeCount, fits node = false) →
      ((forBatches pool nodeCount batch false progress).run (Task.breaking fits payload) schedule).outcome =
        .error (.workerFailed payload.message)) := by
  have hdone : ∀ before node, StopAfter.task none before node = .done := fun _ _ => rfl
  constructor
  · intro hfits
    rw [breaking_of_forall hfits] at hfinished ⊢
    refine ⟨handsOut_of_run_batches pool hbatch hlimit progress hdone schedule hfinished, ?_⟩
    have hreturns := run_induction (P := Returns (· = .value ()))
      (fun _ worker hd => hd.step_of_done hdone worker) (returns_forBatches pool nodeCount batch progress) schedule
    exact hreturns.exists_outcome_eq_ok
  · rintro ⟨node, hnode, hunfit⟩
    rcases (keepsUp_forBatches fits pool nodeCount batch progress).run payload schedule with hkeeps | hbroken
    · rw [hkeeps.eq] at hfinished
      have hfit := hkeeps.fits_of_handsOut
        (handsOut_of_run_batches pool hbatch hlimit progress hdone schedule hfinished) hnode
      rw [hunfit] at hfit
      cases hfit
    · exact hbroken.outcome_eq (run_induction (P := Returns (EmptyOrBroken payload))
        (fun _ worker hd => returns_step_breaking fits hd worker)
        (returns_forBatches pool nodeCount batch progress) schedule)

/-- **One worker after the other,** they fail if a node does not fit. -/
theorem outcome_settle_breaking (pool : Pool) (progress : Progress)
    (hlimit : nodeCount + (pool.concurrency + 1) * max batch 1 ≤ counterLimit)
    (hunfit : ∃ node < nodeCount, fits node = false) :
    ((forBatches pool nodeCount batch false progress).settle (Task.breaking fits payload)).outcome =
      .error (.workerFailed payload.message) := by
  obtain ⟨node, hnode, hunfit⟩ := hunfit
  rcases (keepsUp_forBatches fits pool nodeCount batch progress).settle payload with hkeeps | hbroken
  · have hfit := hkeeps.fits_of_handsOut (handsOut_trace_batches pool nodeCount batch progress hlimit).1 hnode
    rw [hunfit] at hfit
    cases hfit
  · exact hbroken.outcome_eq (settle_induction (P := Returns (EmptyOrBroken payload))
      (fun _ worker hd => returns_step_breaking fits hd worker)
      (returns_forBatches pool nodeCount batch progress))

end Crew

end PackedGraph
