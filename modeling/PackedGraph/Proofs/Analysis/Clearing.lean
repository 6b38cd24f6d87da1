import PackedGraph.Proofs.Analysis.Buffers

/-!
# Emptying the buffers

The way back gives every settled node its turn, the farthest first.  A node passes shares on to the nodes in
front of it.  As these were settled before it, their turn is still to come, so nothing is added up for a node
whose buffers have been emptied (`Emptied`).  The walk empties the buffers of the settled nodes and touches no
others.  So it leaves new buffers behind exactly when nothing has been noted about any node that was not
settled.

How shares are reckoned makes no difference here.  What the walk adds to the scores is a list of amounts that
depends on the buffers only.

Main statements: `Search.Orderly.accumulate_eq_new_iff` and `Search.accumulate_scores`.
-/

namespace PackedGraph

namespace Search

variable {κ ρ : Type} [PathCost κ] [Reckoning ρ] {s : Search κ ρ} {source node nodeCount : Nat} {withCosts : Bool}

/-! ## One node's turn -/

theorem sameAt_clear (s : Search κ ρ) {x : Nat} (hx : x ≠ node) : s.SameAt (s.clear node) x :=
  ⟨getD_setIfInBounds_of_ne hx _ _, getD_setIfInBounds_of_ne hx _ _, getD_setIfInBounds_of_ne hx _ _,
    getD_setIfInBounds_of_ne hx _ _⟩

theorem untouched_clear (s : Search κ ρ) (node : Nat) : (s.clear node).Untouched node :=
  ⟨getD_setIfInBounds_self .., getD_setIfInBounds_self .., getD_setIfInBounds_self ..,
    getD_setIfInBounds_self ..⟩

theorem dependencyOf_clear (s : Search κ ρ) (node : Nat) :
    (s.clear node).dependencyOf node = Reckoning.ofCount 0 :=
  getD_setIfInBounds_self ..

theorem dependencyOf_clear_of_ne (s : Search κ ρ) {x : Nat} (hx : x ≠ node) :
    (s.clear node).dependencyOf x = s.dependencyOf x :=
  getD_setIfInBounds_of_ne hx _ _

theorem Sized.clear (h : s.Sized nodeCount withCosts) (node : Nat) : (s.clear node).Sized nodeCount withCosts :=
  ⟨(Array.size_setIfInBounds ..).trans h.paths, (Array.size_setIfInBounds ..).trans h.dependency,
    (Array.size_setIfInBounds ..).trans h.distance, (Array.size_setIfInBounds ..).trans h.cost,
    (Array.size_setIfInBounds ..).trans h.predecessors⟩

/-- The buffers after a node has passed on its dependency. -/
def afterShares (s : Search κ ρ) (node : Nat) : Search κ ρ :=
  { s with dependency := (s.predecessorsOf node).foldl (fun dependencies predecessor =>
      dependencies.modify predecessor (Reckoning.add ·
        (share (Reckoning.ofCount (s.pathsTo node)) (s.dependencyOf node) (s.pathsTo predecessor)))) s.dependency }

omit [PathCost κ] in
/-- Shares are passed on to dependencies only. -/
theorem foldl_share (paths dependency : ρ) (predecessors : List Nat) (s : Search κ ρ) :
    predecessors.foldl (fun (s : Search κ ρ) predecessor =>
        let share := share paths dependency (s.pathsTo predecessor)
        { s with dependency := s.dependency.modify predecessor (Reckoning.add · share) }) s =
      { s with dependency := predecessors.foldl (fun dependencies predecessor =>
          dependencies.modify predecessor
            (Reckoning.add · (share paths dependency (s.pathsTo predecessor)))) s.dependency } := by
  induction predecessors generalizing s with
  | nil => rfl
  | cons predecessor predecessors ih => exact ih _

theorem passOn_eq (source node : Nat) (s : Search κ ρ) (scores : Array ρ) :
    passOn source (s, scores) node = ((s.afterShares node).clear node,
      if node = source then scores else scores.modify node (Reckoning.add · (s.dependencyOf node))) := by
  simp only [passOn, foldl_share]
  rfl

section

variable {α : Type} (f : Nat → α → α)

theorem size_foldl_modify (places : List Nat) (xs : Array α) :
    (places.foldl (fun xs place => xs.modify place (f place)) xs).size = xs.size := by
  induction places generalizing xs with
  | nil => rfl
  | cons place places ih => rw [List.foldl_cons, ih, Array.size_modify]

theorem getD_foldl_modify_of_notMem {places : List Nat} {i : Nat} (hi : i ∉ places) (xs : Array α) (fallback : α) :
    (places.foldl (fun xs place => xs.modify place (f place)) xs).getD i fallback = xs.getD i fallback := by
  induction places generalizing xs with
  | nil => rfl
  | cons place places ih =>
    rw [List.mem_cons, not_or] at hi
    rw [List.foldl_cons, ih hi.2, getD_modify_of_ne hi.1]

end

omit [PathCost κ] in
theorem Sized.afterShares (h : s.Sized nodeCount withCosts) (node : Nat) :
    (s.afterShares node).Sized nodeCount withCosts :=
  ⟨h.paths, (size_foldl_modify _ _ _).trans h.dependency, h.distance, h.cost, h.predecessors⟩

/-- Sharing changes nothing but what is added up. -/
theorem sameAt_afterShares (s : Search κ ρ) (node x : Nat) : s.SameAt (s.afterShares node) x :=
  ⟨rfl, rfl, rfl, rfl⟩

omit [PathCost κ] in
/-- Only the nodes in front of a node get a share from it. -/
theorem dependencyOf_afterShares_of_notMem {x : Nat} (hx : x ∉ s.predecessorsOf node) :
    (s.afterShares node).dependencyOf x = s.dependencyOf x :=
  getD_foldl_modify_of_notMem _ hx _ _

/-! ## The whole way -/

/-- What the way back relies on. -/
structure Orderly (nodeCount : Nat) (withCosts : Bool) (s : Search κ ρ) : Prop where
  /-- The buffers have their sizes. -/
  sized : s.Sized nodeCount withCosts
  /-- No node is settled twice. -/
  nodup : s.settled.Nodup
  /-- The nodes in front of a settled node were settled before it. -/
  earlier : ∀ behind v rest, s.settled = behind ++ v :: rest → ∀ u ∈ s.predecessorsOf v, u ∈ rest
  /-- Nothing has been added up yet. -/
  dependencyOf : ∀ v, s.dependencyOf v = Reckoning.ofCount 0

/-- The buffers when some nodes have had their turn. -/
structure Emptied (nodeCount : Nat) (withCosts : Bool) (start : Search κ ρ) (done : List Nat) (s : Search κ ρ) :
    Prop where
  /-- The buffers have their sizes. -/
  sized : s.Sized nodeCount withCosts
  /-- The nodes have been taken from them. -/
  settled_eq : s.settled = []
  /-- Nothing is noted any more about nodes that have had their turn. -/
  cleared : ∀ v ∈ done, s.Untouched v ∧ s.dependencyOf v = Reckoning.ofCount 0
  /-- What has been noted about others stands. -/
  same : ∀ v, v ∉ done → start.SameAt s v
  /-- Nothing is added up for nodes that are not settled. -/
  idle : ∀ v, v ∉ start.settled → s.dependencyOf v = Reckoning.ofCount 0

/-- **One node's turn.** -/
theorem Emptied.passOn {start : Search κ ρ} {done rest : List Nat} {v : Nat} (horderly : start.Orderly nodeCount withCosts)
    (hsettled : start.settled = done ++ v :: rest) (h : Emptied nodeCount withCosts start done s) :
    Emptied nodeCount withCosts start (done ++ [v]) ((s.afterShares v).clear v) := by
  have hnodup := horderly.nodup
  rw [hsettled, List.nodup_append] at hnodup
  obtain ⟨-, -, hdisjoint⟩ := hnodup
  have hnew : v ∉ done := fun hv => hdisjoint v hv v List.mem_cons_self rfl
  have hearlier : ∀ u ∈ s.predecessorsOf v, u ∈ rest := by
    rw [(h.same v hnew).predecessorsOf]
    exact horderly.earlier done v rest hsettled
  have hsame : ∀ x, x ≠ v → s.SameAt ((s.afterShares v).clear v) x := fun x hx =>
    (sameAt_afterShares s v x).trans (sameAt_clear _ hx)
  have hshares : ∀ x, x ≠ v → x ∉ rest → ((s.afterShares v).clear v).dependencyOf x = s.dependencyOf x := by
    intro x hx hxr
    rw [dependencyOf_clear_of_ne _ hx]
    exact dependencyOf_afterShares_of_notMem fun hmem => hxr (hearlier x hmem)
  constructor
  case sized => exact (h.sized.afterShares v).clear v
  case settled_eq => exact h.settled_eq
  case cleared =>
    intro x hx
    by_cases heq : x = v
    · rw [heq]
      exact ⟨untouched_clear _ _, dependencyOf_clear _ _⟩
    · have hx : x ∈ done := (List.mem_append.mp hx).resolve_right fun hx => heq (List.mem_singleton.mp hx)
      obtain ⟨huntouched, hzero⟩ := h.cleared x hx
      have hxr : x ∉ rest := fun hmem => hdisjoint x hx x (List.mem_cons_of_mem _ hmem) rfl
      exact ⟨huntouched.of_sameAt (hsame x heq), (hshares x heq hxr).trans hzero⟩
  case same =>
    intro x hx
    rw [List.mem_append, not_or, List.mem_singleton] at hx
    exact (h.same x hx.1).trans (hsame x hx.2)
  case idle =>
    intro x hx
    have hxs := hx
    rw [hsettled, List.mem_append, List.mem_cons, not_or, not_or] at hxs
    obtain ⟨-, hxv, hxr⟩ := hxs
    exact (hshares x hxv hxr).trans (h.idle x hx)

theorem Emptied.foldl {start : Search κ ρ} (horderly : start.Orderly nodeCount withCosts) (todo : List Nat)
    {done : List Nat} {state : Search κ ρ × Array ρ} (hsettled : start.settled = done ++ todo)
    (h : Emptied nodeCount withCosts start done state.1) :
    Emptied nodeCount withCosts start start.settled (todo.foldl (Search.passOn source) state).1 := by
  induction todo generalizing done state with
  | nil =>
    rw [List.append_nil] at hsettled
    exact hsettled ▸ h
  | cons v todo ih =>
    obtain ⟨s, scores⟩ := state
    have hnext : start.settled = (done ++ [v]) ++ todo := by
      rw [hsettled, List.append_assoc, List.singleton_append]
    refine ih hnext ?_
    rw [passOn_eq]
    exact h.passOn horderly hsettled

namespace Orderly

/-- No node has had its turn. -/
theorem emptied_nil (h : s.Orderly nodeCount withCosts) :
    Emptied nodeCount withCosts s [] { s with settled := [] } := by
  have hsized := h.sized
  constructor
  case sized => exact ⟨hsized.paths, hsized.dependency, hsized.distance, hsized.cost, hsized.predecessors⟩
  case settled_eq => rfl
  case cleared => exact fun v hv => absurd hv List.not_mem_nil
  case same => exact fun v _ => ⟨rfl, rfl, rfl, rfl⟩
  case idle => exact fun v _ => h.dependencyOf v

/-- **The way back empties the buffers of the settled nodes, and of no others.** -/
theorem emptied (h : s.Orderly nodeCount withCosts) (source : Nat) (scores : Array ρ) :
    Emptied nodeCount withCosts s s.settled (s.accumulate source scores).1 :=
  Emptied.foldl h s.settled (List.nil_append _).symm h.emptied_nil

/-- New buffers are left behind exactly when nothing has been noted about nodes that were not settled. -/
theorem accumulate_eq_new_iff (h : s.Orderly nodeCount withCosts) (source : Nat) (scores : Array ρ) :
    (s.accumulate source scores).1 = new nodeCount withCosts ↔ ∀ v, v ∉ s.settled → s.Untouched v := by
  have hend := h.emptied source scores
  constructor
  · intro heq v hv
    have hsame := hend.same v hv
    rw [heq] at hsame
    have hnew := untouched_new (ρ := ρ) (κ := κ) nodeCount withCosts v
    exact ⟨hsame.pathsTo.symm.trans hnew.pathsTo, hsame.predecessorsOf.symm.trans hnew.predecessorsOf,
      hsame.mark.symm.trans hnew.mark, hsame.costOf.symm.trans hnew.costOf⟩
  · intro huntouched
    refine hend.sized.eq_new (fun v => ?_) (fun v => ?_) hend.settled_eq
    · by_cases hv : v ∈ s.settled
      · exact (hend.cleared v hv).1
      · exact (huntouched v hv).of_sameAt (hend.same v hv)
    · by_cases hv : v ∈ s.settled
      · exact (hend.cleared v hv).2
      · exact hend.idle v hv

end Orderly

/-! ## The scores -/

/-- Add amounts to the scores of nodes, one after the other. -/
def addAmounts (amounts : List (Nat × ρ)) (scores : Array ρ) : Array ρ :=
  amounts.foldl (fun scores amount => scores.modify amount.1 (Reckoning.add · amount.2)) scores

/-- What the way back adds to the scores of nodes, in order. -/
def amounts (source : Nat) : List Nat → Search κ ρ → List (Nat × ρ)
  | [], _ => []
  | node :: nodes, s =>
    (if node = source then [] else [(node, s.dependencyOf node)]) ++
      amounts source nodes ((s.afterShares node).clear node)

/-- What is added to the scores does not depend on them. -/
theorem foldl_passOn_scores (source : Nat) (nodes : List Nat) (s : Search κ ρ) (scores : Array ρ) :
    (nodes.foldl (passOn source) (s, scores)).2 = addAmounts (amounts source nodes s) scores := by
  induction nodes generalizing s scores with
  | nil => rfl
  | cons node nodes ih =>
    rw [List.foldl_cons, passOn_eq, ih, amounts, addAmounts, addAmounts, List.foldl_append]
    split <;> rfl

theorem accumulate_scores (source : Nat) (s : Search κ ρ) (scores : Array ρ) :
    (s.accumulate source scores).2 = addAmounts (amounts source s.settled { s with settled := [] }) scores :=
  foldl_passOn_scores ..

end Search

end PackedGraph
