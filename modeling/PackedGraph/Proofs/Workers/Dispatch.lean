import PackedGraph.Proofs.Workers.Pool
import PackedGraph.Workers.Dispatch

/-!
# The failure of the first worker is reported

Every task is at one place: ahead, waiting, under way or back.  A move takes one task to its next place, so a
run in which all tasks are back has begun each of them exactly once, after three moves for every task, and until
then another move is possible.  What is read in the end is therefore what comes of reading the outcomes in
worker order, and neither the moves nor the number of threads make a difference.

Main statements: `Dispatch.Sound.of_step?` for one move, `Dispatch.Sound.of_run?` for a run,
`Dispatch.exists_run?_of_perm` for every order of arrival, and `pool_reports_first_failing_worker`.
-/

namespace PackedGraph

variable {α : Type} {pool : Pool} {task : Nat → Outcome α} {workers : Nat}

/-! ## Causes of failure -/

/-- A worker fails with its own fault, or with the text of its breakdown. -/
theorem Outcome.settle_eq_error_iff {outcome : Outcome α} {cause : Fault} :
    outcome.settle = .error cause ↔
      outcome = .fault cause ∨
        ∃ payload, outcome = .panicked payload ∧ cause = .workerFailed payload.message := by
  cases outcome with
  | value result => simp [settle]
  | fault own => simp [settle]
  | panicked payload => simp [settle, eq_comm]

namespace Pool

/-- A pool that returns has so many results, each of its own worker. -/
theorem run_eq_ok_iff_getElem? {values : List α} :
    run workers task = .ok values ↔
      values.length = workers ∧ ∀ worker value, values[worker]? = some value → task worker = .value value := by
  rw [run_eq_ok_iff, List.forall₂_iff_get]
  constructor
  · rintro ⟨hlength, h⟩
    refine ⟨by rw [← hlength, List.length_range], fun worker value hvalue => ?_⟩
    obtain ⟨hworker, rfl⟩ := List.getElem?_eq_some_iff.mp hvalue
    simpa using h worker (hlength ▸ hworker) hworker
  · rintro ⟨hlength, h⟩
    refine ⟨by rw [List.length_range, hlength], fun worker _ hworker => ?_⟩
    simpa using h worker _ (List.getElem?_eq_getElem hworker)

/-- A pool that fails does so for its first worker that fails. -/
theorem run_eq_error_iff {cause : Fault} :
    run workers task = .error cause ↔
      ∃ worker < workers, (task worker = .fault cause ∨
          ∃ payload, task worker = .panicked payload ∧ cause = .workerFailed payload.message) ∧
        ∀ before < worker, ∃ value, task before = .value value := by
  rw [run_eq, mapM_eq_error_iff List.pairwise_lt_range]
  simp only [List.mem_range, Outcome.settle_eq_error_iff, Outcome.settle_eq_ok_iff]
  refine exists_congr fun worker => and_congr_right fun hworker => and_congr_right fun _ => ?_
  exact ⟨fun h before hbefore => h before (Nat.lt_trans hbefore hworker) hbefore, fun h before _ => h before⟩

end Pool

namespace Dispatch

/-! ## One move -/

variable {d d' : Dispatch α} {move : Move}

/-- Every task is at one place, and what has arrived are the outcomes of the tasks that are back. -/
structure Sound (workers : Nat) (task : Nat → Outcome α) (d : Dispatch α) : Prop where
  /-- Every task is at one place. -/
  places : (d.ahead ++ (d.waiting ++ (d.busy ++ d.arrived.map Prod.fst))).Perm (List.range workers)
  /-- The tasks that have begun are under way or back. -/
  begun : d.begun.Perm (d.busy ++ d.arrived.map Prod.fst)
  /-- Every task comes back with its outcome. -/
  arrived_eq : d.arrived = (d.arrived.map Prod.fst).map fun worker => (worker, task worker)

theorem sound_new (workers : Nat) (task : Nat → Outcome α) : (new workers).Sound workers task where
  places := by simp [new]
  begun := List.Perm.refl []
  arrived_eq := rfl

/-- What a move does to the places of the tasks. -/
theorem step?_eq_some_iff :
    d.step? pool task move = some d' ↔
      (∃ worker ahead, move = .spawn ∧ d.ahead = worker :: ahead ∧
        d' = { d with ahead := ahead, waiting := d.waiting ++ [worker] }) ∨
      (∃ worker, move = .begin worker ∧ worker ∈ d.waiting ∧ d.busy.length < pool.concurrency ∧
        d' = { d with
          waiting := d.waiting.erase worker, busy := worker :: d.busy, begun := d.begun ++ [worker] }) ∨
      (∃ worker, move = .finish worker ∧ worker ∈ d.busy ∧
        d' = { d with busy := d.busy.erase worker, arrived := d.arrived ++ [(worker, task worker)] }) := by
  cases move with
  | spawn =>
    rw [step?]
    cases d.ahead <;> simp [eq_comm]
  | begin worker =>
    rw [step?]
    split
    case isTrue h => simp [h, eq_comm]
    case isFalse h =>
      simp only [reduceCtorEq, false_and, exists_false, or_false, false_or, Move.begin.injEq, false_iff]
      rintro ⟨_, rfl, hwaiting, hfree, -⟩
      exact h ⟨hwaiting, hfree⟩
  | finish worker =>
    rw [step?]
    split
    case isTrue h => simp [h, eq_comm]
    case isFalse h =>
      simp only [reduceCtorEq, false_and, exists_false, false_or, Move.finish.injEq, false_iff]
      rintro ⟨_, rfl, hbusy, -⟩
      exact h hbusy

/-- A move keeps every task at one place. -/
theorem Sound.of_step? (h : d.Sound workers task) (hstep : d.step? pool task move = some d') :
    d'.Sound workers task := by
  obtain ⟨worker, ahead, -, hahead, rfl⟩ | ⟨worker, -, hwaiting, -, rfl⟩ | ⟨worker, -, hbusy, rfl⟩ :=
    step?_eq_some_iff.mp hstep
  case inl =>
    refine ⟨List.Perm.trans ?_ h.places, h.begun, h.arrived_eq⟩
    dsimp only
    rw [hahead, List.append_assoc, List.singleton_append, ← List.append_assoc]
    exact List.perm_middle.trans (List.Perm.of_eq (by rw [List.append_assoc, List.cons_append]))
  case inr.inl =>
    refine ⟨List.Perm.trans (List.Perm.append_left _ ?_) h.places, ?_, h.arrived_eq⟩
    · rw [List.cons_append]
      refine List.perm_middle.trans ?_
      rw [← List.cons_append]
      exact List.Perm.append_right _ (List.perm_cons_erase hwaiting).symm
    · exact (List.perm_append_singleton worker _).trans (h.begun.cons worker)
  case inr.inr =>
    have hmoved : (d.busy.erase worker ++ (d.arrived ++ [(worker, task worker)]).map Prod.fst).Perm
        (d.busy ++ d.arrived.map Prod.fst) := by
      rw [List.map_append, ← List.append_assoc]
      refine (List.perm_append_singleton worker _).trans ?_
      rw [← List.cons_append]
      exact List.Perm.append_right _ (List.perm_cons_erase hbusy).symm
    refine ⟨List.Perm.trans (List.Perm.append_left _ (List.Perm.append_left _ hmoved)) h.places,
      h.begun.trans hmoved.symm, ?_⟩
    dsimp only
    rw [List.map_append, List.map_append, ← h.arrived_eq]
    rfl

/-- The moves that are left. -/
def left (d : Dispatch α) : Nat := 3 * d.ahead.length + 2 * d.waiting.length + d.busy.length

/-- One move less is left. -/
theorem left_of_step? (hstep : d.step? pool task move = some d') : d'.left + 1 = d.left := by
  obtain ⟨worker, ahead, -, hahead, rfl⟩ | ⟨worker, -, hwaiting, -, rfl⟩ | ⟨worker, -, hbusy, rfl⟩ :=
    step?_eq_some_iff.mp hstep
  case inl =>
    simp only [left, hahead, List.length_append, List.length_cons, List.length_nil]
    omega
  case inr.inl =>
    have hpos := List.length_pos_of_mem hwaiting
    simp only [left, List.length_erase_of_mem hwaiting, List.length_cons]
    omega
  case inr.inr =>
    have hpos := List.length_pos_of_mem hbusy
    simp only [left, List.length_erase_of_mem hbusy]
    omega

theorem allBack_eq_true_iff : d.allBack = true ↔ d.ahead = [] ∧ d.waiting = [] ∧ d.busy = [] := by
  simp [allBack, and_assoc]

/-- As long as a task is not back, there is a move. -/
theorem exists_step?_of_not_allBack (h : d.allBack = false) : ∃ move d', d.step? pool task move = some d' := by
  cases hbusy : d.busy with
  | cons worker busy =>
    exact ⟨.finish worker, _, if_pos (hbusy ▸ List.mem_cons_self)⟩
  | nil =>
    cases hwaiting : d.waiting with
    | cons worker waiting =>
      exact ⟨.begin worker, _, if_pos ⟨hwaiting ▸ List.mem_cons_self, hbusy ▸ pool.positive⟩⟩
    | nil =>
      cases hahead : d.ahead with
      | cons worker ahead =>
        exact ⟨.spawn, _, step?_eq_some_iff.mpr (.inl ⟨worker, ahead, rfl, hahead, rfl⟩)⟩
      | nil =>
        have hback := allBack_eq_true_iff.mpr ⟨hahead, hwaiting, hbusy⟩
        exact absurd (h.symm.trans hback) Bool.false_ne_true

/-! ## Runs -/

/-- A run keeps every task at one place, and every move of it is one of those that were left. -/
theorem Sound.of_run? (moves : List Move) :
    ∀ {d : Dispatch α}, d.Sound workers task → d.run? pool task moves = some d' →
      d'.Sound workers task ∧ moves.length + d'.left = d.left := by
  induction moves with
  | nil =>
    intro d h hrun
    obtain rfl := Option.some.inj hrun
    exact ⟨h, Nat.zero_add _⟩
  | cons move moves ih =>
    intro d h hrun
    obtain ⟨next, hstep, hrest⟩ := Option.bind_eq_some_iff.mp hrun
    obtain ⟨hsound, hleft⟩ := ih (h.of_step? hstep) hrest
    have hone := left_of_step? hstep
    rw [List.length_cons]
    exact ⟨hsound, by omega⟩

/-- When all tasks are back, each has begun once and arrived once. -/
theorem Sound.perm_of_allBack (h : d.Sound workers task) (hback : d.allBack = true) :
    d.begun.Perm (List.range workers) ∧ (d.arrived.map Prod.fst).Perm (List.range workers) := by
  obtain ⟨hahead, hwaiting, hbusy⟩ := allBack_eq_true_iff.mp hback
  have hplaces := h.places
  have hbegun := h.begun
  rw [hahead, hwaiting, hbusy, List.nil_append, List.nil_append, List.nil_append] at hplaces
  rw [hbusy, List.nil_append] at hbegun
  exact ⟨hbegun.trans hplaces, hplaces⟩

/-- What is read in the end does not depend on the moves. -/
theorem Sound.result_eq (h : d.Sound workers task) (hback : d.allBack = true) :
    d.result = Pool.run workers task := by
  rw [result, h.arrived_eq]
  exact Pool.runInOrder_eq_run (h.perm_of_allBack hback).2 task

theorem run?_append (first second : List Move) :
    ∀ d : Dispatch α, d.run? pool task (first ++ second) =
      (d.run? pool task first).bind fun d => d.run? pool task second := by
  induction first with
  | nil => exact fun d => rfl
  | cons move first ih =>
    intro d
    rw [List.cons_append, run?, run?, Option.bind_assoc]
    exact congrArg _ (funext ih)

/-- All tasks can be handed over before any begins. -/
theorem run?_spawn (pool : Pool) (task : Nat → Outcome α) (ahead : List Nat) :
    ∀ d : Dispatch α, d.ahead = ahead →
      d.run? pool task (List.replicate ahead.length .spawn) =
        some { d with ahead := [], waiting := d.waiting ++ ahead } := by
  induction ahead with
  | nil =>
    intro d hahead
    rw [List.append_nil, List.length_nil, List.replicate_zero, run?, ← hahead]
  | cons worker ahead ih =>
    intro d hahead
    rw [List.length_cons, List.replicate_succ, run?,
      step?_eq_some_iff.mpr (.inl ⟨worker, ahead, rfl, hahead, rfl⟩), Option.bind_some, ih _ rfl]
    simp only [List.append_assoc, List.singleton_append]

/-- Tasks that wait can be done one after the other, in any order. -/
theorem run?_each (pool : Pool) (task : Nat → Outcome α) (order : List Nat) :
    ∀ d : Dispatch α, d.busy = [] → order.Perm d.waiting →
      d.run? pool task (order.flatMap fun worker => [.begin worker, .finish worker]) =
        some { d with
          waiting := [],
          begun := d.begun ++ order,
          arrived := d.arrived ++ order.map fun worker => (worker, task worker) } := by
  induction order with
  | nil =>
    intro d hbusy hperm
    rw [List.map_nil, List.append_nil, List.append_nil, List.flatMap_nil, run?, ← List.nil_perm.mp hperm]
  | cons worker order ih =>
    intro d hbusy hperm
    have hwaiting : worker ∈ d.waiting := hperm.mem_iff.mp List.mem_cons_self
    have hrest : order.Perm (d.waiting.erase worker) := by
      have := hperm.erase worker
      rwa [List.erase_cons_head] at this
    rw [List.flatMap_cons, List.cons_append, List.cons_append, List.nil_append, run?,
      step?_eq_some_iff.mpr (.inr (.inl ⟨worker, rfl, hwaiting, hbusy ▸ pool.positive, rfl⟩)),
      Option.bind_some, run?, step?_eq_some_iff.mpr (.inr (.inr ⟨worker, rfl, List.mem_cons_self, rfl⟩)),
      Option.bind_some, ih _ (by simp [hbusy]) hrest]
    simp [hbusy]

/-- The tasks can arrive in any order. -/
theorem exists_run?_of_perm (pool : Pool) (task : Nat → Outcome α) {order : List Nat}
    (h : order.Perm (List.range workers)) :
    ∃ moves d, (new workers).run? pool task moves = some d ∧ d.allBack = true ∧ d.arrived.map Prod.fst = order := by
  have hspawn := run?_spawn pool task (List.range workers) (new workers) rfl
  have heach := run?_each pool task order
    { (new workers : Dispatch α) with ahead := [], waiting := List.range workers } rfl h
  exact ⟨.replicate (List.range workers).length .spawn ++
      order.flatMap fun worker => [.begin worker, .finish worker], _,
    by rw [run?_append, hspawn, Option.bind_some]; exact heach, rfl, by simp [new, Function.comp_def]⟩

end Dispatch

/-! ## What a pool returns -/

/-- **Failures are reported in worker order.**  Let a pool of any size run one task for each of a number of
workers, each with any outcome.  The tasks can arrive in any order.  Whatever moves have been made, three for
every task suffice, and as long as a task is not back another move is possible.  When all are back, every task
has begun exactly once, and the result is that of `Pool.run`: the values in worker order if all tasks have one,
and otherwise the fault of the first worker that fails, or the text of its breakdown. -/
theorem pool_reports_first_failing_worker (pool : Pool) (workers : Nat) (task : Nat → Outcome α) :
    (∀ order : List Nat, order.Perm (List.range workers) →
      ∃ moves d, (Dispatch.new workers).run? pool task moves = some d ∧ d.allBack = true ∧
        d.arrived.map Prod.fst = order) ∧
    ∀ moves d, (Dispatch.new workers).run? pool task moves = some d →
      moves.length ≤ 3 * workers ∧ (d.allBack = true ↔ moves.length = 3 * workers) ∧
      (d.allBack = false → ∃ move d', d.step? pool task move = some d') ∧
      (d.allBack = true → d.begun.Perm (List.range workers) ∧ d.result = Pool.run workers task ∧
        (∀ values, d.result = .ok values ↔
          values.length = workers ∧ ∀ worker value, values[worker]? = some value → task worker = .value value) ∧
        ∀ cause, d.result = .error cause ↔
          ∃ worker < workers, (task worker = .fault cause ∨
              ∃ payload, task worker = .panicked payload ∧ cause = .workerFailed payload.message) ∧
            ∀ before < worker, ∃ value, task before = .value value) := by
  refine ⟨fun order => Dispatch.exists_run?_of_perm pool task, fun moves d hrun => ?_⟩
  obtain ⟨hsound, hleft⟩ := (Dispatch.sound_new workers task).of_run? moves hrun
  have hall : (Dispatch.new workers : Dispatch α).left = 3 * workers := by simp [Dispatch.left, Dispatch.new]
  have hback : d.allBack = true ↔ d.left = 0 := by
    rw [Dispatch.allBack_eq_true_iff, ← List.length_eq_zero_iff, ← List.length_eq_zero_iff,
      ← List.length_eq_zero_iff, Dispatch.left]
    omega
  refine ⟨by omega, by rw [hback]; omega, Dispatch.exists_step?_of_not_allBack, fun hend => ?_⟩
  have hresult := hsound.result_eq hend
  refine ⟨(hsound.perm_of_allBack hend).1, hresult, fun values => ?_, fun cause => ?_⟩
  · rw [hresult]
    exact Pool.run_eq_ok_iff_getElem?
  · rw [hresult]
    exact Pool.run_eq_error_iff

/-- Two threads and four tasks: worker 2 breaks down and is back first, but worker 1 fails too, and its fault is
reported. -/
theorem worker_one_fails_last :
    let task : Nat → Outcome Nat := fun worker =>
      if worker = 1 then .fault (.unsupportedGraph "boom")
      else if worker = 2 then .panicked (.text "exploded")
      else .value worker
    let moves : List Dispatch.Move :=
      [.spawn, .spawn, .spawn, .begin 2, .begin 0, .finish 2, .spawn, .begin 3, .finish 3, .begin 1, .finish 1,
        .finish 0]
    ∃ d, (Dispatch.new 4).run? ⟨2, Nat.two_pos⟩ task moves = some d ∧ d.allBack = true ∧
      d.arrived.map Prod.fst = [2, 3, 1, 0] ∧ d.begun.Perm [0, 1, 2, 3] ∧
      d.result = .error (.unsupportedGraph "boom") := by
  intro task moves
  have hrun := pool_reports_first_failing_worker ⟨2, Nat.two_pos⟩ 4 task
  obtain ⟨-, -, -, hback⟩ := hrun.2 moves _ rfl
  obtain ⟨hbegun, -, -, herror⟩ := hback rfl
  exact ⟨_, rfl, rfl, rfl, hbegun,
    (herror _).mpr ⟨1, by decide, .inl rfl, fun before h => ⟨0, by rw [Nat.lt_one_iff.mp h]; rfl⟩⟩⟩

end PackedGraph
