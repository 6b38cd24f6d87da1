import PackedGraph.Proofs.Workers.Alone

/-!
# Asked to stop

A worker looks for the request to stop between two nodes.  So a worker alone stops right behind the node
during which the request came first, be it in the middle of a batch, at its end or in front of an empty
one, and what has been reported by then are the nodes that it has processed.

Main statement: `stops_behind_current_node`.
-/

namespace PackedGraph

/-- A task that neither fails nor breaks down. -/
def Task.Lasts (task : Task) : Prop :=
  ∀ before node, task before node = .done ∨ task before node = .doneAndStop

/-- The request to stop comes first while the node at a place of the list is processed, so many nodes having
been processed before the list. -/
structure RequestedAt (task : Task) (before : Nat) (nodes : List Nat) (place : Nat) : Prop where
  /-- It comes with the node. -/
  comes : ∃ node, nodes[place]? = some node ∧ task (before + place) node = .doneAndStop
  /-- It has not come with a node before. -/
  first : ∀ earlier < place, ∀ node, nodes[earlier]? = some node → task (before + earlier) node = .done

/-- The request to stop does not come while a node of the list is processed. -/
def NeverRequested (task : Task) (before : Nat) (nodes : List Nat) : Prop :=
  ∀ place node, nodes[place]? = some node → task (before + place) node = .done

section

variable {task : Task} {before node place : Nat} {nodes rest : List Nat}

theorem requestedAt_cons_succ :
    RequestedAt task before (node :: rest) (place + 1) ↔
      task before node = .done ∧ RequestedAt task (before + 1) rest place := by
  have hplace : ∀ later, before + (later + 1) = before + 1 + later := fun later => by omega
  constructor
  · rintro ⟨hcomes, hfirst⟩
    refine ⟨hfirst 0 (Nat.succ_pos _) node rfl, ?_, fun earlier hlt other hother => ?_⟩
    · rwa [hplace] at hcomes
    · rw [← hplace]
      exact hfirst (earlier + 1) (Nat.succ_lt_succ hlt) other hother
  · rintro ⟨hdone, hcomes, hfirst⟩
    refine ⟨by rwa [hplace], fun earlier hlt other hother => ?_⟩
    cases earlier with
    | zero =>
      obtain rfl := Option.some.inj hother
      exact hdone
    | succ earlier =>
      rw [hplace]
      exact hfirst earlier (Nat.lt_of_succ_lt_succ hlt) other hother

theorem neverRequested_cons :
    NeverRequested task before (node :: rest) ↔
      task before node = .done ∧ NeverRequested task (before + 1) rest := by
  have hplace : ∀ later, before + (later + 1) = before + 1 + later := fun later => by omega
  constructor
  · intro h
    refine ⟨h 0 node rfl, fun later other hother => ?_⟩
    rw [← hplace]
    exact h (later + 1) other hother
  · rintro ⟨hdone, h⟩ place other hother
    cases place with
    | zero =>
      obtain rfl := Option.some.inj hother
      exact hdone
    | succ place =>
      rw [hplace]
      exact h place other hother

/-- The walk ends behind the node during which the request came. -/
theorem walk_of_requestedAt (h : RequestedAt task before nodes place) :
    walk task false before nodes = ⟨nodes.take (place + 1), true, .value ()⟩ := by
  induction nodes generalizing before place with
  | nil =>
    obtain ⟨node, hnode, -⟩ := h.comes
    simp at hnode
  | cons node rest ih =>
    cases place with
    | zero =>
      obtain ⟨other, hother, hstop⟩ := h.comes
      obtain rfl := Option.some.inj hother
      exact walk_of_doneAndStop hstop
    | succ place =>
      obtain ⟨hdone, hlater⟩ := requestedAt_cons_succ.mp h
      simp [walk_of_done hdone, ih hlater, Walk.behind]

/-- The walk that nobody stops goes through all nodes. -/
theorem walk_of_neverRequested (h : NeverRequested task before nodes) :
    walk task false before nodes = ⟨nodes, false, .value ()⟩ := by
  induction nodes generalizing before with
  | nil => rfl
  | cons node rest ih =>
    obtain ⟨hdone, hlater⟩ := neverRequested_cons.mp h
    simp [walk_of_done hdone, ih hlater, Walk.behind]

/-- The request comes with one of the nodes first, or with none. -/
theorem Task.Lasts.requestedAt_or (h : task.Lasts) (before : Nat) (nodes : List Nat) :
    (∃ place, RequestedAt task before nodes place) ∨ NeverRequested task before nodes := by
  induction nodes generalizing before with
  | nil => exact .inr (by simp [NeverRequested])
  | cons node rest ih =>
    rcases h before node with hdone | hstop
    · rcases ih (before + 1) with ⟨place, hplace⟩ | hnever
      · exact .inl ⟨place + 1, requestedAt_cons_succ.mpr ⟨hdone, hplace⟩⟩
      · exact .inr (neverRequested_cons.mpr ⟨hdone, hnever⟩)
    · exact .inl ⟨0, ⟨node, rfl, hstop⟩, by simp⟩

/-- A task that lasts does not make a walker give up. -/
theorem Task.Lasts.outcome_walk (h : task.Lasts) (stopped : Bool) (before : Nat) (nodes : List Nat) :
    (walk task stopped before nodes).outcome = .value () := by
  cases stopped with
  | true => rw [walk_stopped]
  | false =>
    rcases h.requestedAt_or before nodes with ⟨place, hplace⟩ | hnever
    · rw [walk_of_requestedAt hplace]
    · rw [walk_of_neverRequested hnever]

end

/-- What a crew that was to process a list of nodes has done when it is back: it has gone as far as the
request to stop let it. -/
structure StopsInTime (task : Task) (stopped : Bool) (nodes : List Nat) (earlier : Nat) (c : Crew) : Prop where
  /-- Asked before it began, it has processed nothing. -/
  before_start : stopped = true → c.visits.toList.map Visit.node = []
  /-- Asked first during a node, it has processed the nodes up to that one. -/
  at_place : stopped = false → ∀ place, RequestedAt task 0 nodes place →
    c.visits.toList.map Visit.node = nodes.take (place + 1)
  /-- Never asked, it has processed all. -/
  never : stopped = false → NeverRequested task 0 nodes → c.visits.toList.map Visit.node = nodes
  /-- It is back, -/
  finished : c.finished = true
  /-- with the state of its one worker. -/
  outcome : c.outcome = .ok [()]
  /-- It knows whether it has been asked. -/
  stopped_iff : c.stopped = true ↔ stopped = true ∨ ∃ place, RequestedAt task 0 nodes place
  /-- As many nodes as it has processed are reported, besides those that were before. -/
  progress : c.progress.done = earlier + c.visits.size

namespace Crew

variable {c : Crew} {w : Walk} {task : Task} {earlier : Nat}

theorem HasWalked.nodes_eq (h : c.HasWalked w earlier) : c.visits.toList.map Visit.node = w.processed := by
  simp [h.visits_eq, Function.comp_def]

theorem HasWalked.worker_lt (h : c.HasWalked w earlier) : ∀ v ∈ c.visits.toList, v.worker < 1 := by
  intro v hv
  rw [h.visits_eq] at hv
  obtain ⟨node, -, rfl⟩ := List.mem_map.mp hv
  exact Nat.one_pos

theorem HasWalked.outcome_eq (h : c.HasWalked w earlier) (hvalue : w.outcome = .value ()) :
    c.outcome = .ok [()] := by
  simp [Crew.outcome, h.stages_eq, hvalue, collect, Outcome.settle, bind, Except.bind, pure, Except.pure]

/-- A walk of a task that lasts ends in time. -/
theorem HasWalked.stopsInTime (hlasts : task.Lasts) {stopped : Bool} {nodes : List Nat}
    (h : c.HasWalked (walk task stopped 0 nodes) earlier) : StopsInTime task stopped nodes earlier c := by
  have hvalue := hlasts.outcome_walk stopped 0 nodes
  have hnodes := h.nodes_eq
  constructor
  case before_start =>
    rintro rfl
    rw [hnodes, walk_stopped]
  case at_place =>
    rintro rfl place hplace
    rw [hnodes, walk_of_requestedAt hplace]
  case never =>
    rintro rfl hnever
    rw [hnodes, walk_of_neverRequested hnever]
  case finished => simp [Crew.finished, h.stages_eq]
  case outcome => exact h.outcome_eq hvalue
  case stopped_iff =>
    rw [h.stopped_eq]
    cases stopped with
    | true => simp [walk_stopped]
    | false =>
      rcases hlasts.requestedAt_or 0 nodes with ⟨place, hplace⟩ | hnever
      · simp only [walk_of_requestedAt hplace, Bool.false_eq_true, false_or, true_iff]
        exact ⟨place, hplace⟩
      · simp only [walk_of_neverRequested hnever, Bool.false_eq_true, false_or, false_iff]
        rintro ⟨place, ⟨node, hnode, hstop⟩, -⟩
        rw [hnever place node hnode] at hstop
        exact absurd hstop (by simp)
  case progress => rw [h.done_eq hvalue, ← hnodes, List.length_map, Array.length_toList]

end Crew

/-- **A worker alone stops behind the current node, and reports what it has processed.**  This holds for
every list of partitions and every node count in batches of any size, as long as the counter of the batches
does not pass the largest word, and for every task that never fails, whenever it raises the request. -/
theorem stops_behind_current_node {task : Task} (hlasts : task.Lasts) (pool : Pool) (stopped : Bool)
    (progress : Progress) :
    (∀ partitions : List Partition, min pool.concurrency partitions.length ≤ 1 →
      StopsInTime task stopped (partitions.flatMap Partition.nodes) progress.done
        ((Crew.forPartitions pool partitions stopped progress).settle task)) ∧
    ∀ nodeCount batch : Nat, pool.concurrency = 1 → nodeCount + batch < counterLimit →
      StopsInTime task stopped (List.range nodeCount) progress.done
        ((Crew.forBatches pool nodeCount batch stopped progress).settle task) := by
  constructor
  · intro partitions hone
    have hworkers : max (min pool.concurrency partitions.length) 1 = 1 := by omega
    rw [Crew.forPartitions, hworkers]
    exact (Crew.settle_alone task partitions stopped progress).stopsInTime hlasts
  · intro nodeCount batch hone hlimit
    rw [Crew.forBatches, hone]
    exact (Crew.settle_alone_batches task (by omega) (by omega) stopped progress).stopsInTime hlasts

/-- The request comes with the third node: that is the first of the third partition, behind an empty one, and
the first of the second batch. -/
theorem stops_behind_third_node :
    (StopAfter.task (some 3)).Lasts ∧ min 1 3 ≤ 1 ∧ 10 + 2 < counterLimit ∧
      RequestedAt (StopAfter.task (some 3)) 0 [0, 1, 7, 8, 9] 2 ∧
      ((Crew.forPartitions ⟨1, Nat.one_pos⟩ [⟨0, 2⟩, ⟨5, 0⟩, ⟨7, 3⟩] false (.new "visit" 5 10)).settle
        (StopAfter.task (some 3))).visits.toList.map Visit.node = [0, 1, 7] ∧
      ((Crew.forBatches ⟨1, Nat.one_pos⟩ 10 2 false (.new "visit" 10 10)).settle
        (StopAfter.task (some 3))).progress.done = 3 := by
  have hlasts : (StopAfter.task (some 3)).Lasts := by
    intro before node
    unfold StopAfter.task
    split <;> simp
  have hplace : RequestedAt (StopAfter.task (some 3)) 0 [0, 1, 7, 8, 9] 2 :=
    ⟨⟨7, by decide⟩, by decide⟩
  have hplace' : RequestedAt (StopAfter.task (some 3)) 0 (List.range 10) 2 :=
    ⟨⟨2, by decide⟩, by decide⟩
  refine ⟨hlasts, by decide, by decide, hplace, ?_, ?_⟩
  · obtain ⟨hpartitions, -⟩ := stops_behind_current_node hlasts ⟨1, Nat.one_pos⟩ false (.new "visit" 5 10)
    exact (hpartitions [⟨0, 2⟩, ⟨5, 0⟩, ⟨7, 3⟩] (by decide)).at_place rfl 2 hplace
  · obtain ⟨-, hbatches⟩ := stops_behind_current_node hlasts ⟨1, Nat.one_pos⟩ false (.new "visit" 10 10)
    have htime := hbatches 10 2 rfl (by decide)
    rw [htime.progress, ← Array.length_toList, ← List.length_map Visit.node, htime.at_place rfl 2 hplace']
    rfl

end PackedGraph
