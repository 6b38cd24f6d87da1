import PackedGraph.Proofs.Analysis.Clearing
import PackedGraph.Proofs.Analysis.Exploration

/-!
# The way back

When a search is over, `accumulate` walks back from the farthest node.  A node's turn comes when all nodes
behind it have passed on their shares to it, so what has been added up for it by then is its dependency, by
Brandes' recurrence.  The walk adds the dependencies to the scores and leaves new buffers behind.

Shares are reckoned exactly here, as rational numbers.

Main statement: `Search.Complete.accumulate_eq`.
-/

namespace PackedGraph

/-- Exact shares. -/
instance : Reckoning ℚ where
  ofCount n := n
  add := (· + ·)
  mul := (· * ·)
  div := (· / ·)

/-- Add something to every entry. -/
def addEach (amount : Nat → ℚ) (scores : Array ℚ) : Array ℚ :=
  scores.mapIdx fun i score => score + amount i

theorem addEach_zero (scores : Array ℚ) : addEach (fun _ => 0) scores = scores := by
  refine Array.ext (by rw [addEach, Array.size_mapIdx]) fun i _ _ => ?_
  simp only [addEach, Array.getElem_mapIdx, add_zero]

theorem addEach_addEach (amount more : Nat → ℚ) (scores : Array ℚ) :
    addEach more (addEach amount scores) = addEach (fun i => amount i + more i) scores := by
  refine Array.ext (by simp only [addEach, Array.size_mapIdx]) fun i _ _ => ?_
  simp only [addEach, Array.getElem_mapIdx, add_assoc]

theorem modify_eq_addEach (node : Nat) (x : ℚ) (scores : Array ℚ) :
    scores.modify node (· + x) = addEach (fun i => if i = node then x else 0) scores := by
  refine Array.ext (by simp only [addEach, Array.size_mapIdx, Array.size_modify]) fun i _ _ => ?_
  simp only [addEach, Array.getElem_mapIdx, Array.getElem_modify]
  by_cases h : node = i
  · rw [if_pos h, if_pos h.symm]
  · rw [if_neg h, if_neg (Ne.symm h), add_zero]

namespace Search

variable {κ : Type} [PathCost κ] {s : Search κ ℚ} {source node nodeCount : Nat} {withCosts : Bool}

/-! ## One node's turn -/

theorem getD_foldl_modify (amount : Nat → ℚ) (places : List Nat) {xs : Array ℚ} {i : Nat} (hi : i < xs.size) :
    (places.foldl (fun xs place => xs.modify place (· + amount place)) xs).getD i 0 =
      xs.getD i 0 + places.count i * amount i := by
  induction places generalizing xs with
  | nil => simp
  | cons place places ih =>
    rw [List.foldl_cons, ih (by rwa [Array.size_modify]), List.count_cons]
    by_cases heq : i = place
    · subst heq
      rw [getD_modify_entry hi, if_pos rfl, if_pos (beq_self_eq_true i)]
      push_cast
      ring
    · rw [getD_modify_of_ne heq, if_neg (by simpa using Ne.symm heq), Nat.add_zero]

theorem passOn_exact (source node : Nat) (s : Search κ ℚ) (scores : Array ℚ) :
    passOn source (s, scores) node = ((s.afterShares node).clear node,
      addEach (fun i => if i = node ∧ i ≠ source then s.dependencyOf node else 0) scores) := by
  rw [passOn_eq]
  by_cases hnode : node = source
  · have hnone : ∀ i, ¬ (i = node ∧ i ≠ source) := fun i h => h.2 (h.1.trans hnode)
    simp only [hnone, if_false, addEach_zero, if_pos hnode]
  · have hone : ∀ i, (i = node ∧ i ≠ source) ↔ i = node :=
      fun i => ⟨And.left, fun h => ⟨h, fun heq => hnode (h.symm.trans heq)⟩⟩
    simp only [hone, ← modify_eq_addEach, if_neg hnode]
    rfl

omit [PathCost κ] in
theorem dependencyOf_afterShares (h : s.Sized nodeCount withCosts) {x : Nat} (hx : x < nodeCount) :
    (s.afterShares node).dependencyOf x = s.dependencyOf x +
      (s.predecessorsOf node).count x * share (s.pathsTo node : ℚ) (s.dependencyOf node) (s.pathsTo x) := by
  have hsum := getD_foldl_modify (fun x => share (s.pathsTo node : ℚ) (s.dependencyOf node) (s.pathsTo x))
    (s.predecessorsOf node) (h.dependency.symm ▸ hx : x < s.dependency.size)
  exact hsum

/-! ## The whole way -/

section

variable {ways : Ways} {d : Nat → ℚ}

/-- What nodes have added up for a node that are behind it. -/
def passedTo (s : Search κ ℚ) (δ : Nat → ℚ) (behind : List Nat) (node : Nat) : ℚ :=
  (behind.map fun w => (s.predecessorsOf w).count node * share (s.pathsTo w : ℚ) (δ w) (s.pathsTo node)).sum

/-- Nodes that are settled later are no nearer. -/
theorem Found.le_of_split (h : s.Found ways source d) {behind rest : List Nat} {v : Nat}
    (hsettled : s.settled = behind ++ v :: rest) :
    (∀ w ∈ behind, d v ≤ d w) ∧ ∀ w ∈ v :: rest, d w ≤ d v := by
  have hsorted := h.sorted
  rw [hsettled, List.pairwise_append, List.pairwise_cons] at hsorted
  obtain ⟨-, ⟨hrest, -⟩, hbehind⟩ := hsorted
  exact ⟨fun w hw => hbehind w hw v List.mem_cons_self, List.forall_mem_cons.mpr ⟨le_refl _, hrest⟩⟩

/-- A complete search is ready for the way back: a node is farther than the nodes in front of it. -/
theorem Complete.orderly {ρ : Type} [Reckoning ρ] {s : Search κ ρ}
    (h : s.Complete nodeCount withCosts ways source d) : s.Orderly nodeCount withCosts := by
  constructor
  case sized => exact h.sized
  case nodup => exact h.found.nodup
  case earlier =>
    intro behind v rest hsettled u hu
    have hv : v ∈ s.settled := by rw [hsettled]; simp
    have hcount := List.count_pos_iff.mpr hu
    rw [h.found.count_predecessors v hv] at hcount
    split at hcount
    · rename_i hmem
      have hsorted := h.found.sorted
      rw [hsettled, List.pairwise_append] at hsorted
      rw [hsettled, List.mem_append, List.mem_cons] at hmem
      rcases hmem with hbehind | rfl | hrest
      · rw [h.found.distances.tightCount_eq_zero (hsorted.2.2 u hbehind v List.mem_cons_self)] at hcount
        exact absurd hcount (Nat.lt_irrefl 0)
      · rw [h.found.distances.tightCount_eq_zero (le_refl _)] at hcount
        exact absurd hcount (Nat.lt_irrefl 0)
      · exact hrest
    · exact absurd hcount (Nat.lt_irrefl 0)
  case dependencyOf => exact h.dependencyOf

/-- After a complete search the way back leaves new buffers behind. -/
theorem Complete.accumulate_fst {ρ : Type} [Reckoning ρ] {s : Search κ ρ}
    (h : s.Complete nodeCount withCosts ways source d) (scores : Array ρ) :
    (s.accumulate source scores).1 = new nodeCount withCosts :=
  (h.orderly.accumulate_eq_new_iff source scores).mpr h.found.untouched

/-- **A node's turn comes when it has all its shares.** -/
theorem Found.passedTo_eq (h : s.Found ways source d)
    (hlimit : ∀ v ∈ s.settled, (tight ways d source v).ncard ≤ pathLimit) {behind : List Nat} {v : Nat}
    {rest : List Nat} (hsettled : s.settled = behind ++ v :: rest) :
    s.passedTo (dependencyOn ways d source s.settled.toFinset) behind v =
      dependencyOn ways d source s.settled.toFinset v := by
  have hmem : v ∈ s.settled := by rw [hsettled]; simp
  have hpaths : ∀ x ∈ s.settled, s.pathsTo x = (tight ways d source x).ncard :=
    fun x hx => (h.pathsTo x hx).trans (Nat.min_eq_left (hlimit x hx))
  -- nodes that are not behind `v` pass nothing on to it
  have hnearer : ∀ w ∈ v :: rest, tightCount ways d v w = 0 := fun w hw =>
    h.distances.tightCount_eq_zero ((h.le_of_split hsettled).2 w hw)
  have hbehind : ∀ w ∈ behind, ((s.predecessorsOf w).count v : ℚ) *
      share (s.pathsTo w : ℚ) (dependencyOn ways d source s.settled.toFinset w) (s.pathsTo v) =
      tightCount ways d v w * ((tight ways d source v).ncard / ((tight ways d source w).ncard : ℚ) *
        (1 + dependencyOn ways d source s.settled.toFinset w)) := by
    intro w hw
    have hw : w ∈ s.settled := by
      rw [hsettled]
      exact List.mem_append_left _ hw
    rw [h.count_predecessors w hw, if_pos hmem, hpaths w hw, hpaths v hmem]
    simp only [share, Reckoning.mul, Reckoning.div, Reckoning.add, Reckoning.ofCount, Nat.cast_one]
  have hothers : ((v :: rest).map fun w => tightCount ways d v w *
      ((tight ways d source v).ncard / ((tight ways d source w).ncard : ℚ) *
        (1 + dependencyOn ways d source s.settled.toFinset w))).sum = 0 := by
    refine List.sum_eq_zero fun x hx => ?_
    obtain ⟨w, hw, rfl⟩ := List.mem_map.mp hx
    rw [hnearer w hw, Nat.cast_zero, zero_mul]
  have hall := h.distances.dependencyOn_eq (List.mem_toFinset.mpr hmem)
  rw [List.sum_toFinset _ h.nodup] at hall
  rw [hall]
  conv_rhs => rw [show s.settled.map _ = (behind ++ v :: rest).map _ from congrArg _ hsettled]
  rw [List.map_append, List.sum_append, hothers, add_zero, passedTo, List.map_congr_left hbehind]

/-- The state of the walk when some nodes have had their turn. -/
structure PassedOn (nodeCount : Nat) (withCosts : Bool) (start : Search κ ℚ) (source : Nat) (δ : Nat → ℚ)
    (scores : Array ℚ) (done : List Nat) (state : Search κ ℚ × Array ℚ) : Prop
    extends Emptied nodeCount withCosts start done state.1 where
  /-- The shares of other nodes are added up. -/
  dependencyOf : ∀ v < nodeCount, v ∉ done → state.1.dependencyOf v = start.passedTo δ done v
  /-- The dependencies are added to the scores, except that of the source. -/
  scores_eq : state.2 = addEach (fun v => if v ∈ done ∧ v ≠ source then δ v else 0) scores

theorem PassedOn.passOn {start : Search κ ℚ} {scores : Array ℚ} {done rest : List Nat} {v : Nat}
    {state : Search κ ℚ × Array ℚ} (hcomplete : start.Complete nodeCount withCosts ways source d)
    (hlimit : ∀ v ∈ start.settled, (tight ways d source v).ncard ≤ pathLimit)
    (hsettled : start.settled = done ++ v :: rest)
    (h : PassedOn nodeCount withCosts start source (dependencyOn ways d source start.settled.toFinset) scores
      done state) :
    PassedOn nodeCount withCosts start source (dependencyOn ways d source start.settled.toFinset) scores
      (done ++ [v]) (Search.passOn source state v) := by
  have hmem : v ∈ start.settled := by rw [hsettled]; simp
  have hnodup := hcomplete.found.nodup
  rw [hsettled, List.nodup_append] at hnodup
  have hnew : v ∉ done := fun hv => hnodup.2.2 v hv v List.mem_cons_self rfl
  obtain ⟨s, sum⟩ := state
  have hdependency : s.dependencyOf v = dependencyOn ways d source start.settled.toFinset v :=
    (h.dependencyOf v (hcomplete.settled_lt v hmem) hnew).trans (hcomplete.found.passedTo_eq hlimit hsettled)
  have hshared : ∀ x, x < nodeCount → (s.afterShares v).dependencyOf x = s.dependencyOf x +
      (start.predecessorsOf v).count x * share (start.pathsTo v : ℚ)
        (dependencyOn ways d source start.settled.toFinset v) (s.pathsTo x) := by
    intro x hx
    rw [dependencyOf_afterShares h.sized hx, hdependency, (h.same v hnew).predecessorsOf, (h.same v hnew).pathsTo]
  rw [passOn_exact, hdependency]
  constructor
  case toEmptied => exact h.toEmptied.passOn hcomplete.orderly hsettled
  case dependencyOf =>
    intro x hx hxd
    rw [List.mem_append, not_or, List.mem_singleton] at hxd
    rw [dependencyOf_clear_of_ne _ hxd.2, hshared x hx, h.dependencyOf x hx hxd.1, (h.same x hxd.1).pathsTo,
      passedTo, passedTo, List.map_append, List.sum_append, List.map_singleton, List.sum_singleton]
  case scores_eq =>
    have hsum : sum = addEach _ scores := h.scores_eq
    rw [hsum, addEach_addEach]
    refine congrArg (addEach · scores) ?_
    funext x
    by_cases heq : x = v
    · subst heq
      simp [hnew]
    · simp [heq]

theorem PassedOn.foldl {start : Search κ ℚ} {scores : Array ℚ}
    (hcomplete : start.Complete nodeCount withCosts ways source d)
    (hlimit : ∀ v ∈ start.settled, (tight ways d source v).ncard ≤ pathLimit)
    (todo : List Nat) {done : List Nat} {state : Search κ ℚ × Array ℚ}
    (hsettled : start.settled = done ++ todo)
    (h : PassedOn nodeCount withCosts start source (dependencyOn ways d source start.settled.toFinset) scores
      done state) :
    PassedOn nodeCount withCosts start source (dependencyOn ways d source start.settled.toFinset) scores
      start.settled (todo.foldl (Search.passOn source) state) := by
  induction todo generalizing done state with
  | nil =>
    rw [List.append_nil] at hsettled
    exact hsettled ▸ h
  | cons v todo ih =>
    refine ih ?_ (h.passOn hcomplete hlimit hsettled)
    rw [hsettled, List.append_assoc, List.singleton_append]

/-- No node has had its turn. -/
theorem Complete.passedOn_nil (h : s.Complete nodeCount withCosts ways source d) (δ : Nat → ℚ) (scores : Array ℚ) :
    PassedOn nodeCount withCosts s source δ scores [] ({ s with settled := [] }, scores) := by
  constructor
  case toEmptied => exact h.orderly.emptied_nil
  case dependencyOf => exact fun v _ _ => (h.dependencyOf v).trans Nat.cast_zero
  case scores_eq =>
    simp only [List.not_mem_nil, false_and, if_false]
    exact (addEach_zero scores).symm

/-- **Brandes' accumulation.**  Walking back from the farthest node adds the dependency of the source on
every other node to that node's score, and leaves new buffers behind. -/
theorem Complete.accumulate_eq (hcomplete : s.Complete nodeCount withCosts ways source d)
    (hlimit : ∀ v ∈ s.settled, (tight ways d source v).ncard ≤ pathLimit) (scores : Array ℚ) :
    s.accumulate source scores = (new nodeCount withCosts, addEach (fun v =>
      if v ∈ s.settled ∧ v ≠ source then dependencyOn ways d source s.settled.toFinset v else 0) scores) := by
  have hend := (hcomplete.passedOn_nil _ scores).foldl hcomplete hlimit s.settled rfl
  exact Prod.ext (hcomplete.accumulate_fst scores) hend.scores_eq

end

end Search

end PackedGraph
