import Mathlib.Data.List.Forall2
import PackedGraph.Settings.Basic
import PackedGraph.Workers.Pool

/-!
# What a pool returns

A pool that returns has run every task with success, and returns the results in worker order.  One that
fails does so for the cause of its first worker that failed.  In which order the workers come back makes
no difference.

Main statements: `Pool.run_eq_ok_iff` and `Pool.runInOrder_eq_run`.
-/

namespace PackedGraph

/-- What comes back with success has succeeded at every step. -/
theorem ok_of_bind {ε α β : Type} {x : Except ε α} {f : α → Except ε β} {b : β} (h : (x >>= f) = .ok b) :
    ∃ a, x = .ok a ∧ f a = .ok b := by
  cases x with
  | error cause => exact absurd h (by simp [bind, Except.bind])
  | ok a => exact ⟨a, rfl, h⟩

/-- What does not come back has failed at its first step or behind it. -/
theorem error_of_bind {ε α β : Type} {x : Except ε α} {f : α → Except ε β} {cause : ε}
    (h : (x >>= f) = .error cause) : x = .error cause ∨ ∃ a, x = .ok a ∧ f a = .error cause := by
  cases x with
  | error first =>
    obtain rfl := Except.error.inj (h : Except.error first = .error cause)
    exact .inl rfl
  | ok a => exact .inr ⟨a, rfl, h⟩

/-- Settings that are accepted have a worker. -/
theorem one_le_of_checkConcurrency {concurrency : Nat} (h : checkConcurrency concurrency = .ok ()) :
    1 ≤ concurrency := by
  by_contra hzero
  rw [checkConcurrency, if_pos (by omega)] at h
  exact absurd h (by simp)

/-- A pool has as many workers as it was to have. -/
theorem Pool.concurrency_of_new {concurrency : Nat} {pool : Pool} (h : Pool.new? concurrency = .ok pool) :
    pool.concurrency = concurrency := by
  rw [Pool.new?] at h
  split at h
  · exact congrArg Pool.concurrency (Except.ok.inj h).symm
  · exact absurd h (by simp)

/-- A list is worked through with success when every entry is. -/
theorem mapM_eq_ok_iff {α β ε : Type} {f : α → Except ε β} {xs : List α} {ys : List β} :
    xs.mapM f = .ok ys ↔ List.Forall₂ (fun x y => f x = .ok y) xs ys := by
  induction xs generalizing ys with
  | nil =>
    rw [List.mapM_nil, List.forall₂_nil_left_iff]
    exact ⟨fun h => (Except.ok.inj h).symm, fun h => h ▸ rfl⟩
  | cons x xs ih =>
    rw [List.mapM_cons, List.forall₂_cons_left_iff]
    constructor
    · intro h
      cases hx : f x with
      | error cause =>
        rw [hx] at h
        exact absurd h (by simp [bind, Except.bind])
      | ok y =>
        cases hxs : xs.mapM f with
        | error cause =>
          rw [hx, hxs] at h
          exact absurd h (by simp [bind, Except.bind])
        | ok rest =>
          rw [hx, hxs] at h
          exact ⟨y, rest, rfl, ih.mp hxs, (Except.ok.inj h).symm⟩
    · rintro ⟨y, rest, hx, hxs, rfl⟩
      rw [hx, ih.mpr hxs]
      rfl

/-- Work on a list that succeeds has succeeded with every entry. -/
theorem exists_of_mapM_eq_ok {α β ε : Type} {f : α → Except ε β} {xs : List α} {ys : List β}
    (h : xs.mapM f = .ok ys) {x : α} (hx : x ∈ xs) : ∃ y, f x = .ok y := by
  have hall := mapM_eq_ok_iff.mp h
  obtain ⟨i, hi, rfl⟩ := List.getElem_of_mem hx
  exact ⟨_, hall.get hi (hall.length_eq ▸ hi)⟩

/-- Work on a list fails with one of its entries. -/
theorem exists_of_mapM_eq_error {α β ε : Type} {f : α → Except ε β} {xs : List α} {cause : ε}
    (h : xs.mapM f = .error cause) : ∃ x ∈ xs, f x = .error cause := by
  induction xs with
  | nil => exact absurd h (by simp [pure, Except.pure])
  | cons x xs ih =>
    rw [List.mapM_cons] at h
    cases hx : f x with
    | error first =>
      rw [hx] at h
      obtain rfl := Except.error.inj (h : Except.error first = .error cause)
      exact ⟨x, List.mem_cons_self, hx⟩
    | ok y =>
      cases hxs : xs.mapM f with
      | ok rest =>
        rw [hx, hxs] at h
        exact absurd h (by simp [bind, Except.bind, pure, Except.pure])
      | error first =>
        rw [hx, hxs] at h
        obtain rfl := Except.error.inj (h : Except.error first = .error cause)
        obtain ⟨other, hother, herror⟩ := ih hxs
        exact ⟨other, List.mem_cons_of_mem _ hother, herror⟩

/-- A list is what is found at its places. -/
theorem map_range_getD {α : Type} (xs : List α) (fallback : α) :
    (List.range xs.length).map (fun i => xs[i]?.getD fallback) = xs :=
  List.ext_getElem (by simp) fun i _ hi => by simp [hi]

theorem mapM_congr {α β ε : Type} {f g : α → Except ε β} {xs : List α} (h : ∀ x ∈ xs, f x = g x) :
    xs.mapM f = xs.mapM g := by
  induction xs with
  | nil => rfl
  | cons x xs ih =>
    rw [List.mapM_cons, List.mapM_cons, h x List.mem_cons_self,
      ih fun y hy => h y (List.mem_cons_of_mem _ hy)]

/-- An ascending list fails with the least entry that does. -/
theorem mapM_eq_error_iff {β ε : Type} {f : Nat → Except ε β} {xs : List Nat} (h : xs.Pairwise (· < ·))
    {cause : ε} :
    xs.mapM f = .error cause ↔
      ∃ x ∈ xs, f x = .error cause ∧ ∀ y ∈ xs, y < x → ∃ b, f y = .ok b := by
  induction xs with
  | nil => simp [pure, Except.pure]
  | cons x xs ih =>
    obtain ⟨hbehind, hxs⟩ := List.pairwise_cons.mp h
    rw [List.mapM_cons]
    cases hx : f x with
    | error first =>
      constructor
      · intro herror
        obtain rfl := Except.error.inj herror
        refine ⟨x, List.mem_cons_self, hx, fun y hy hlt => ?_⟩
        rcases List.mem_cons.mp hy with rfl | hy
        · exact absurd hlt (Nat.lt_irrefl _)
        · exact absurd (hbehind y hy) (Nat.lt_asymm hlt)
      · rintro ⟨y, hy, herror, hbefore⟩
        rcases List.mem_cons.mp hy with rfl | hy
        · obtain rfl := Except.error.inj (hx.symm.trans herror)
          rfl
        · obtain ⟨b, hb⟩ := hbefore x List.mem_cons_self (hbehind y hy)
          exact absurd (hx.symm.trans hb) (by simp)
    | ok b =>
      have hrest : (Except.ok b >>= fun b => xs.mapM f >>= fun bs => pure (b :: bs)) = .error cause ↔
          xs.mapM f = .error cause := by
        cases xs.mapM f <;> simp [bind, Except.bind, pure, Except.pure]
      rw [hrest, ih hxs]
      constructor
      · rintro ⟨y, hy, herror, hbefore⟩
        exact ⟨y, List.mem_cons_of_mem _ hy, herror,
          List.forall_mem_cons.mpr ⟨fun _ => ⟨b, hx⟩, hbefore⟩⟩
      · rintro ⟨y, hy, herror, hbefore⟩
        rcases List.mem_cons.mp hy with rfl | hy
        · exact absurd (hx.symm.trans herror) (by simp)
        · exact ⟨y, hy, herror, (List.forall_mem_cons.mp hbefore).2⟩

/-- Whether work that is cut into parts fails, and why, does not depend on where it is cut. -/
theorem mapM_parts_eq_error_iff {α β γ δ ε : Type} {f : β → Except ε γ} {parts : α → List β}
    {finish : List γ → δ} {xs : List α} {cause : ε} :
    (xs.mapM fun x => ((parts x).mapM f).map finish) = .error cause ↔
      (xs.flatMap parts).mapM f = .error cause := by
  induction xs with
  | nil => simp [pure, Except.pure]
  | cons x xs ih =>
    rw [List.mapM_cons, List.flatMap_cons, List.mapM_append]
    cases (parts x).mapM f with
    | error first => simp [Except.map, bind, Except.bind]
    | ok first =>
      -- The first part succeeds on both sides, so the others decide.
      refine Iff.trans ?_ (ih.trans ?_)
      · cases xs.mapM fun x => ((parts x).mapM f).map finish <;>
          simp [Except.map, bind, Except.bind, pure, Except.pure]
      · cases (xs.flatMap parts).mapM f <;> simp [bind, Except.bind, pure, Except.pure]

theorem Outcome.settle_eq_ok_iff {α : Type} {outcome : Outcome α} {result : α} :
    outcome.settle = .ok result ↔ outcome = .value result := by
  cases outcome <;> simp [settle]

namespace Pool

/-- The outcomes are read in worker order. -/
theorem run_eq {α : Type} (workers : Nat) (task : Nat → Outcome α) :
    run workers task = (List.range workers).mapM fun worker => (task worker).settle := by
  have hsorted : ((List.range workers).map fun worker => (worker, task worker)).Pairwise
      fun a b => decide (a.1 ≤ b.1) = true := by
    rw [List.pairwise_map]
    exact List.pairwise_lt_range.imp fun hlt => decide_eq_true (Nat.le_of_lt hlt)
  rw [run, runInOrder, collect, List.mergeSort_of_pairwise hsorted, List.mapM_map]
  rfl

/-- In whatever order the workers come back, their outcomes are read in worker order. -/
theorem runInOrder_eq_run {α : Type} {workers : Nat} {order : List Nat}
    (h : order.Perm (List.range workers)) (task : Nat → Outcome α) :
    runInOrder task order = run workers task := by
  have hle : ∀ a b : Nat × Outcome α, (decide (a.1 ≤ b.1) || decide (b.1 ≤ a.1)) = true := fun a b => by
    simpa using Nat.le_total a.1 b.1
  have hsorted := @List.pairwise_mergeSort _ (fun a b : Nat × Outcome α => decide (a.1 ≤ b.1))
    (fun a b c hab hbc => by simpa using Nat.le_trans (by simpa using hab) (by simpa using hbc)) hle
  have harrivals : (order.map fun worker => (worker, task worker)).Perm
      ((List.range workers).map fun worker => (worker, task worker)) := h.map _
  rw [run, runInOrder, runInOrder, collect, collect]
  congr 1
  refine List.Perm.eq_of_pairwise ?_ (hsorted _) (hsorted _) ?_
  · -- Of one worker there is one outcome.
    intro a b ha hb hab hba
    rw [(List.mergeSort_perm _ _).mem_iff] at ha hb
    obtain ⟨i, -, rfl⟩ := List.mem_map.mp ha
    obtain ⟨j, -, rfl⟩ := List.mem_map.mp hb
    obtain rfl : i = j := Nat.le_antisymm (by simpa using hab) (by simpa using hba)
    rfl
  · exact ((List.mergeSort_perm _ _).trans harrivals).trans (List.mergeSort_perm _ _).symm

/-- A pool that returns has the result of every worker. -/
theorem run_eq_ok_iff {α : Type} {workers : Nat} {task : Nat → Outcome α} {results : List α} :
    run workers task = .ok results ↔
      List.Forall₂ (fun worker result => task worker = .value result) (List.range workers) results := by
  rw [run_eq, mapM_eq_ok_iff]
  simp only [Outcome.settle_eq_ok_iff]

end Pool

end PackedGraph
