import Mathlib.Algebra.Order.BigOperators.Group.Finset
import Mathlib.Tactic.Tauto
import PackedGraph.Proofs.Analysis.Exploration

/-!
# Searching by cost

Dijkstra's search settles the cheapest node of the frontier next.  An entry of the frontier that has become
too dear, or whose node is settled, is passed over, so a node may stand in the frontier once for every
relationship that leads to it; but every node that has been reached and not settled stands there at its
known cost (`Settling`).  Taking an entry out and following relationships keeps this.  Every entry that is
put in belongs to a relationship that has not been followed before, so the frontier runs empty in time.

Costs need not add up exactly everywhere.  All costs that the search ever adds up are those of paths that
visit no node twice, and of these it must be known that the sum stands for the sum of the numbers
(`AddsUp`).

Main statement: `Search.complete_cheapestFirst`.
-/

namespace PackedGraph

variable {κ : Type} [PathCost κ]

/-! ## Costs as numbers -/

/-- How costs are read as numbers. -/
structure CostReading (κ : Type) [PathCost κ] where
  /-- The costs that stand for numbers. -/
  finite : κ → Prop
  /-- The number. -/
  value : κ → ℚ
  /-- The cost of staying is a number, -/
  finite_zero : finite PathCost.zero
  /-- and the number is zero. -/
  value_zero : value PathCost.zero = 0
  /-- The cost of a node that has not been reached is none, -/
  not_finite_unreached : ¬ finite PathCost.unreached
  /-- and more than any. -/
  less_unreached : ∀ a, finite a → PathCost.less a PathCost.unreached = true
  /-- Numbers are compared by their order, -/
  less_iff : ∀ a b, finite a → finite b → (PathCost.less a b = true ↔ value a < value b)
  /-- and by equality. -/
  same_iff : ∀ a b, finite a → finite b → (PathCost.same a b = true ↔ value a = value b)

/-- The nodes of a path that visits none of them twice, the last one first, and its cost as it is added up
on the way. -/
inductive Costs (relationships : Nat → List (Nat × κ)) (source : Nat) : List Nat → κ → Prop where
  | start : Costs relationships source [source] PathCost.zero
  | step {u v : Nat} {nodes : List Nat} {c w : κ} : Costs relationships source (u :: nodes) c →
      (v, w) ∈ relationships u → v ∉ u :: nodes → Costs relationships source (v :: u :: nodes) (PathCost.add c w)

/-- Weights are positive numbers, and along a path that visits no node twice they add up exactly. -/
structure AddsUp (r : CostReading κ) (relationships : Nat → List (Nat × κ)) (source : Nat) : Prop where
  /-- Weights are positive. -/
  positive : ∀ u v w, (v, w) ∈ relationships u → 0 < r.value w
  /-- Sums are numbers, and the right ones. -/
  add : ∀ u v w nodes c, Costs relationships source (u :: nodes) c → (v, w) ∈ relationships u →
    v ∉ u :: nodes → r.finite (PathCost.add c w) ∧ r.value (PathCost.add c w) = r.value c + r.value w

/-- Every relationship is as long as its weight says. -/
def costWays (r : CostReading κ) (relationships : Nat → List (Nat × κ)) : Ways :=
  fun u => (relationships u).map fun a => (a.1, r.value a.2)

theorem AddsUp.positive_costWays {r : CostReading κ} {relationships : Nat → List (Nat × κ)} {source : Nat}
    (h : AddsUp r relationships source) : (costWays r relationships).Positive := by
  intro u a ha
  obtain ⟨b, hb, rfl⟩ := List.mem_map.mp ha
  exact h.positive u b.1 b.2 hb

theorem Costs.finite {r : CostReading κ} {relationships : Nat → List (Nat × κ)} {source : Nat}
    (h : AddsUp r relationships source) {nodes : List Nat} {c : κ} (hc : Costs relationships source nodes c) :
    r.finite c := by
  cases hc with
  | start => exact r.finite_zero
  | step hc hw hv => exact (h.add _ _ _ _ _ hc hw hv).1

namespace Search

/-! ## The frontier -/

section

variable {entry : Tentative κ} {frontier : List (Tentative κ)}

theorem mem_insert {other : Tentative κ} :
    other ∈ Tentative.insert entry frontier ↔ other = entry ∨ other ∈ frontier := by
  induction frontier with
  | nil => simp [Tentative.insert]
  | cons first rest ih =>
    rw [Tentative.insert]
    split
    · exact List.mem_cons
    · rw [List.mem_cons, ih, List.mem_cons]
      tauto

theorem length_insert : (Tentative.insert entry frontier).length = frontier.length + 1 := by
  induction frontier with
  | nil => rfl
  | cons first rest ih =>
    rw [Tentative.insert]
    split
    · rfl
    · rw [List.length_cons, ih, List.length_cons]

/-- The frontier stays sorted, by whatever the costs are compared by. -/
theorem sorted_insert {P : Type} [LinearOrder P] {sound : κ → Prop} {rank : κ → P}
    (hless : ∀ a b, sound a → sound b → (PathCost.less a b = true ↔ rank a < rank b))
    (hentry : sound entry.cost) (hsound : ∀ e ∈ frontier, sound e.cost)
    (hsorted : frontier.Pairwise fun a b => rank a.cost ≤ rank b.cost) :
    (Tentative.insert entry frontier).Pairwise fun a b => rank a.cost ≤ rank b.cost := by
  induction frontier with
  | nil => exact List.pairwise_singleton _ _
  | cons first rest ih =>
    have hfirst := hsound first List.mem_cons_self
    obtain ⟨hleast, hrest⟩ := List.pairwise_cons.mp hsorted
    rw [Tentative.insert]
    split
    · rename_i hbefore
      have hle : rank entry.cost ≤ rank first.cost := by
        rw [Tentative.before, Bool.or_eq_true, Bool.and_eq_true, Bool.not_eq_true'] at hbefore
        rcases hbefore with hlt | ⟨hlt, -⟩
        · exact ((hless _ _ hentry hfirst).mp hlt).le
        · exact not_lt.mp fun hgt => absurd ((hless _ _ hfirst hentry).mpr hgt) (by simp [hlt])
      refine List.pairwise_cons.mpr ⟨?_, hsorted⟩
      exact List.forall_mem_cons.mpr ⟨hle, fun e he => hle.trans (hleast e he)⟩
    · rename_i hbefore
      have hle : rank first.cost ≤ rank entry.cost := by
        refine not_lt.mp fun hlt => hbefore ?_
        rw [Tentative.before, (hless _ _ hentry hfirst).mpr hlt, Bool.true_or]
      refine List.pairwise_cons.mpr ⟨?_, ih (fun e he => hsound e (List.mem_cons_of_mem _ he)) hrest⟩
      intro e he
      rcases mem_insert.mp he with rfl | he
      · exact hle
      · exact hleast e he

end

/-! ## The search at work -/

variable {ρ : Type} {r : CostReading κ} {relationships : Nat → List (Nat × κ)} {s : Search κ ρ}
  {source nodeCount node target : Nat} {followed followed' : Ways} {frontier : List (Tentative κ)}
  {before : List Nat} {weight : κ}

/-- The search is on its way, with a frontier. -/
structure Settling (r : CostReading κ) (relationships : Nat → List (Nat × κ)) (source nodeCount : Nat)
    (followed : Ways) (s : Search κ ρ) (frontier : List (Tentative κ)) : Prop where
  /-- The buffers have their sizes. -/
  sized : s.Sized nodeCount true
  /-- The costs tell the distances. -/
  explored : Explored source followed (fun v => r.finite (s.costOf v)) (fun v => r.value (s.costOf v)) s
  /-- Settled nodes are marked, and no others. -/
  mark_iff : ∀ v, s.mark v ≠ 0 ↔ v ∈ s.settled
  /-- Every entry is that of a path through settled nodes. -/
  costs : ∀ e ∈ frontier, ∃ nodes, (∀ v ∈ nodes, v ∈ s.settled) ∧ Costs relationships source (e.node :: nodes) e.cost
  /-- Its node has been reached at its cost or a lower one. -/
  reached : ∀ e ∈ frontier, r.finite (s.costOf e.node) ∧ r.value (s.costOf e.node) ≤ r.value e.cost
  /-- Every node that has been reached and is not settled stands in the frontier at its cost. -/
  live : ∀ v, r.finite (s.costOf v) → v ∉ s.settled →
    ∃ e ∈ frontier, e.node = v ∧ r.value e.cost = r.value (s.costOf v)
  /-- The frontier is sorted. -/
  sorted : frontier.Pairwise fun a b => r.value a.cost ≤ r.value b.cost

theorem lt_of_finite (h : s.Sized nodeCount true) (hfinite : r.finite (s.costOf node)) : node < nodeCount := by
  by_contra hge
  have hnone : s.costOf node = PathCost.unreached := by
    refine getD_of_le ?_ _
    rw [h.cost, if_pos rfl]
    exact Nat.le_of_not_lt hge
  rw [hnone] at hfinite
  exact r.not_finite_unreached hfinite

/-- The buffers when a cheaper way to a node has been found. -/
def replaceWay (s : Search κ ρ) (target node paths : Nat) (candidate : κ) : Search κ ρ :=
  { s with
    cost := s.cost.setIfInBounds target candidate
    paths := s.paths.setIfInBounds target paths
    predecessors := s.predecessors.setIfInBounds target [node] }

omit [PathCost κ] in
theorem sized_replaceWay (h : s.Sized nodeCount true) (target node paths : Nat) (candidate : κ) :
    (s.replaceWay target node paths candidate).Sized nodeCount true :=
  ⟨(Array.size_setIfInBounds ..).trans h.paths, h.dependency, h.distance,
    (Array.size_setIfInBounds ..).trans h.cost, (Array.size_setIfInBounds ..).trans h.predecessors⟩

theorem costOf_replaceWay (h : s.Sized nodeCount true) (htarget : target < nodeCount) (node paths : Nat)
    (candidate : κ) (x : Nat) : (s.replaceWay target node paths candidate).costOf x =
      if x = target then candidate else s.costOf x := by
  refine getD_setIfInBounds ?_ _ _ _
  rw [h.cost, if_pos rfl]
  exact htarget

omit [PathCost κ] in
theorem pathsTo_replaceWay (h : s.Sized nodeCount true) (htarget : target < nodeCount) (node paths : Nat)
    (candidate : κ) (x : Nat) : (s.replaceWay target node paths candidate).pathsTo x =
      if x = target then paths else s.pathsTo x :=
  getD_setIfInBounds (h.paths.symm ▸ htarget) _ _ _

omit [PathCost κ] in
theorem predecessorsOf_replaceWay (h : s.Sized nodeCount true) (htarget : target < nodeCount) (node paths : Nat)
    (candidate : κ) (x : Nat) : (s.replaceWay target node paths candidate).predecessorsOf x =
      if x = target then [node] else s.predecessorsOf x :=
  getD_setIfInBounds (h.predecessors.symm ▸ htarget) _ _ _

theorem sameAt_replaceWay (h : s.Sized nodeCount true) (htarget : target < nodeCount) (node paths : Nat)
    (candidate : κ) {x : Nat} (hx : x ≠ target) : s.SameAt (s.replaceWay target node paths candidate) x :=
  ⟨by rw [pathsTo_replaceWay h htarget, if_neg hx], by rw [predecessorsOf_replaceWay h htarget, if_neg hx], rfl,
    by rw [costOf_replaceWay h htarget, if_neg hx]⟩

/-! ## One relationship -/

theorem relax_of_settled (hmark : s.mark target ≠ 0) (node : Nat) (cost : κ) (paths : Nat)
    (frontier : List (Tentative κ)) (weight : κ) :
    relax node cost paths (s, frontier) (target, weight) = (s, frontier) := by
  simp only [relax]
  exact if_pos hmark

theorem relax_of_less (hmark : s.mark target = 0) {cost : κ}
    (hless : PathCost.less (PathCost.add cost weight) (s.costOf target) = true) (node paths : Nat)
    (frontier : List (Tentative κ)) :
    relax node cost paths (s, frontier) (target, weight) =
      (s.replaceWay target node paths (PathCost.add cost weight),
        Tentative.insert ⟨PathCost.add cost weight, target⟩ frontier) := by
  simp only [relax]
  rw [if_neg (not_not.mpr hmark), if_pos hless]
  rfl

theorem relax_of_same (hmark : s.mark target = 0) {cost : κ}
    (hless : ¬ PathCost.less (PathCost.add cost weight) (s.costOf target) = true)
    (hsame : PathCost.same (PathCost.add cost weight) (s.costOf target) = true) (node paths : Nat)
    (frontier : List (Tentative κ)) :
    relax node cost paths (s, frontier) (target, weight) = (s.addPredecessor target node paths, frontier) := by
  simp only [relax]
  rw [if_neg (not_not.mpr hmark), if_neg hless, if_pos hsame]

theorem relax_of_dearer (hmark : s.mark target = 0) {cost : κ}
    (hless : ¬ PathCost.less (PathCost.add cost weight) (s.costOf target) = true)
    (hsame : ¬ PathCost.same (PathCost.add cost weight) (s.costOf target) = true) (node paths : Nat)
    (frontier : List (Tentative κ)) :
    relax node cost paths (s, frontier) (target, weight) = (s, frontier) := by
  simp only [relax]
  rw [if_neg (not_not.mpr hmark), if_neg hless, if_neg hsame]

namespace Settling

/-- Entries of the frontier have costs that are numbers. -/
theorem finite_cost (h : Settling r relationships source nodeCount followed s frontier)
    (hadds : AddsUp r relationships source) {e : Tentative κ} (he : e ∈ frontier) : r.finite e.cost := by
  obtain ⟨nodes, -, hcosts⟩ := h.costs e he
  exact hcosts.finite hadds

/-- A cheaper way to a node. -/
theorem replace (h : Settling r relationships source nodeCount followed s frontier)
    (hadds : AddsUp r relationships source) (hsettled : s.settled = node :: before)
    (htarget : target < nodeCount) (hnew : target ∉ s.settled) (hpositive : 0 < r.value weight) {candidate : κ}
    (hfinite : r.finite candidate) (hvalue : r.value candidate = r.value (s.costOf node) + r.value weight)
    (hcosts : ∃ nodes, (∀ v ∈ nodes, v ∈ s.settled) ∧ Costs relationships source (target :: nodes) candidate)
    (hcheaper : r.finite (s.costOf target) → r.value candidate < r.value (s.costOf target))
    (hfollows : Follows followed followed' node (target, r.value weight)) :
    Settling r relationships source nodeCount followed'
      (s.replaceWay target node (s.pathsTo node) candidate) (Tentative.insert ⟨candidate, target⟩ frontier) := by
  have hcost := costOf_replaceWay h.sized htarget node (s.pathsTo node) candidate
  constructor
  case sized => exact sized_replaceWay h.sized _ _ _ _
  case explored =>
    refine h.explored.improve hsettled hpositive hnew ?_ hfollows ⟨fun x => ?_, fun x => ?_⟩ rfl
      (fun x hx => sameAt_replaceWay h.sized htarget _ _ _ hx) ?_ ?_
    · intro hreached
      rw [← hvalue]
      exact hcheaper hreached
    · rw [hcost]
      by_cases heq : x = target
      · simp only [heq, if_true, true_or, hfinite]
      · simp only [heq, if_false, false_or]
    · rw [hcost]
      by_cases heq : x = target
      · rw [if_pos heq, if_pos heq, hvalue]
      · rw [if_neg heq, if_neg heq]
    · rw [pathsTo_replaceWay h.sized htarget, if_pos rfl]
    · rw [predecessorsOf_replaceWay h.sized htarget, if_pos rfl]
  case mark_iff => exact h.mark_iff
  case costs =>
    intro e he
    rcases mem_insert.mp he with rfl | he
    · exact hcosts
    · exact h.costs e he
  case reached =>
    intro e he
    rw [hcost]
    rcases mem_insert.mp he with rfl | he
    · rw [if_pos rfl]
      exact ⟨hfinite, le_refl _⟩
    · obtain ⟨hreached, hle⟩ := h.reached e he
      split
      · rename_i heq
        rw [heq] at hreached hle
        exact ⟨hfinite, (hcheaper hreached).le.trans hle⟩
      · exact ⟨hreached, hle⟩
  case live =>
    intro v hv hvn
    rw [hcost] at hv ⊢
    by_cases heq : v = target
    · rw [if_pos heq]
      exact ⟨_, mem_insert.mpr (.inl rfl), heq.symm, rfl⟩
    · rw [if_neg heq] at hv ⊢
      obtain ⟨e, he, hnode, hle⟩ := h.live v hv hvn
      exact ⟨e, mem_insert.mpr (.inr he), hnode, hle⟩
  case sorted => exact sorted_insert r.less_iff hfinite (fun e he => h.finite_cost hadds he) h.sorted

/-- One more way of the same cost. -/
theorem join (h : Settling r relationships source nodeCount followed s frontier)
    (hnode : node ∈ s.settled) (htarget : target < nodeCount) (hnew : target ∉ s.settled)
    (hreached : r.finite (s.costOf target))
    (heq : r.value (s.costOf node) + r.value weight = r.value (s.costOf target))
    (hfollows : Follows followed followed' node (target, r.value weight)) :
    Settling r relationships source nodeCount followed' (s.addPredecessor target node (s.pathsTo node))
      frontier := by
  refine ⟨h.sized.addPredecessor _ _ _, ?_, h.mark_iff, h.costs, h.reached, h.live, h.sorted⟩
  exact h.explored.join hnode hnew hreached heq hfollows rfl (fun x hx => sameAt_addPredecessor s hx _ _)
    (pathsTo_addPredecessor h.sized htarget _ _) (predecessorsOf_addPredecessor h.sized htarget _ _)

/-- A dearer way to a node. -/
theorem pass (h : Settling r relationships source nodeCount followed s frontier)
    (hnode : node ∈ s.settled) (hreached : r.finite (s.costOf target))
    (hlt : r.value (s.costOf target) < r.value (s.costOf node) + r.value weight)
    (hfollows : Follows followed followed' node (target, r.value weight)) :
    Settling r relationships source nodeCount followed' s frontier :=
  ⟨h.sized, h.explored.pass hnode hreached hlt hfollows, h.mark_iff, h.costs, h.reached, h.live, h.sorted⟩

/-- **One relationship.**  It leads to a settled node, or it is a cheaper way than those known, or as cheap
as they are, or dearer. -/
theorem relax (h : Settling r relationships source nodeCount followed s frontier)
    (hadds : AddsUp r relationships source) (hsettled : s.settled = node :: before) {cost : κ}
    (hcost : r.value (s.costOf node) = r.value cost) (hmem : (target, weight) ∈ relationships node)
    (htarget : target < nodeCount) {nodes : List Nat} (hnodes : ∀ v ∈ node :: nodes, v ∈ s.settled)
    (hcosts : Costs relationships source (node :: nodes) cost)
    (hfollows : Follows followed followed' node (target, r.value weight)) :
    let state := Search.relax node cost (s.pathsTo node) (s, frontier) (target, weight)
    Settling r relationships source nodeCount followed' state.1 state.2 := by
  have hnode : node ∈ s.settled := hsettled ▸ List.mem_cons_self
  have hpositive := hadds.positive node target weight hmem
  by_cases hmark : s.mark target = 0
  · have hnew : target ∉ s.settled := fun hin => (h.mark_iff target).mpr hin hmark
    have hnotin : target ∉ node :: nodes := fun hin => hnew (hnodes target hin)
    obtain ⟨hfinite, hvalue⟩ := hadds.add node target weight nodes cost hcosts hmem hnotin
    rw [← hcost] at hvalue
    by_cases hless : PathCost.less (PathCost.add cost weight) (s.costOf target) = true
    · rw [relax_of_less hmark hless]
      exact h.replace hadds hsettled htarget hnew hpositive hfinite hvalue
        ⟨node :: nodes, hnodes, hcosts.step hmem hnotin⟩
        (fun hreached => (r.less_iff _ _ hfinite hreached).mp hless) hfollows
    · -- the target has been reached, since any cost is less than none
      have hreached : r.finite (s.costOf target) := by
        by_contra hnone
        refine hless ?_
        rw [(h.explored.untouched target hnone).costOf]
        exact r.less_unreached _ hfinite
      have hle : r.value (s.costOf target) ≤ r.value (PathCost.add cost weight) :=
        not_lt.mp fun hlt => hless ((r.less_iff _ _ hfinite hreached).mpr hlt)
      by_cases hsame : PathCost.same (PathCost.add cost weight) (s.costOf target) = true
      · rw [relax_of_same hmark hless hsame]
        exact h.join hnode htarget hnew hreached
          (hvalue.symm.trans ((r.same_iff _ _ hfinite hreached).mp hsame)) hfollows
      · rw [relax_of_dearer hmark hless hsame]
        refine h.pass hnode hreached ?_ hfollows
        rw [← hvalue]
        exact lt_of_le_of_ne hle fun heq => hsame ((r.same_iff _ _ hfinite hreached).mpr heq.symm)
  · rw [relax_of_settled hmark]
    -- a settled node is no farther than the one that has been settled last
    have hin : target ∈ s.settled := (h.mark_iff target).mp hmark
    have hle : r.value (s.costOf target) ≤ r.value (s.costOf node) := by
      have hcharted := h.explored.toCharted
      rw [hsettled] at hcharted hin
      exact hcharted.le_last hin
    exact h.pass hnode (h.explored.reached_of_mem target hin) (by linarith) hfollows

end Settling

/-! ## One node -/

/-- What stays at a settled node while relationships are followed, and how long the frontier may be. -/
structure Keeps (nodeCount node : Nat) (s : Search κ ρ) (size : Nat) (state : Search κ ρ × List (Tentative κ)) :
    Prop where
  /-- The buffers keep their sizes. -/
  sized : state.1.Sized nodeCount true
  /-- No node is settled. -/
  settled_eq : state.1.settled = s.settled
  /-- Nothing changes about the node. -/
  sameAt : s.SameAt state.1 node
  /-- Dependencies are not touched. -/
  dependency_eq : state.1.dependency = s.dependency
  /-- The frontier does not become longer than that. -/
  length_le : state.2.length ≤ size

/-- Every relationship puts in at most one entry. -/
theorem keeps_relax (h : s.Sized nodeCount true) (htarget : target < nodeCount) {x : Nat} (hx : s.mark x ≠ 0)
    (node : Nat) (cost : κ) (paths : Nat) (frontier : List (Tentative κ)) (weight : κ) :
    Keeps nodeCount x s (frontier.length + 1) (Search.relax node cost paths (s, frontier) (target, weight)) := by
  by_cases hmark : s.mark target = 0
  · have hne : x ≠ target := fun heq => hx (heq ▸ hmark)
    by_cases hless : PathCost.less (PathCost.add cost weight) (s.costOf target) = true
    · rw [relax_of_less hmark hless]
      exact ⟨sized_replaceWay h _ _ _ _, rfl, sameAt_replaceWay h htarget _ _ _ hne, rfl, length_insert.le⟩
    · by_cases hsame : PathCost.same (PathCost.add cost weight) (s.costOf target) = true
      · rw [relax_of_same hmark hless hsame]
        exact ⟨h.addPredecessor _ _ _, rfl, sameAt_addPredecessor s hne _ _, rfl, Nat.le_succ _⟩
      · rw [relax_of_dearer hmark hless hsame]
        exact ⟨h, rfl, .refl _ _, rfl, Nat.le_succ _⟩
  · rw [relax_of_settled hmark]
    exact ⟨h, rfl, .refl _ _, rfl, Nat.le_succ _⟩

theorem keeps_foldl_relax (h : s.Sized nodeCount true) (hnode : s.mark node ≠ 0) (cost : κ) (paths : Nat)
    (frontier : List (Tentative κ)) (todo : List (Nat × κ)) (htodo : ∀ a ∈ todo, a.1 < nodeCount) :
    Keeps nodeCount node s (frontier.length + todo.length)
      (todo.foldl (Search.relax node cost paths) (s, frontier)) := by
  induction todo generalizing s frontier with
  | nil => exact ⟨h, rfl, .refl _ _, rfl, Nat.le_refl _⟩
  | cons a todo ih =>
    obtain ⟨hlt, htodo⟩ := List.forall_mem_cons.mp htodo
    have hfirst := keeps_relax h hlt hnode node cost paths frontier a.2
    rw [List.foldl_cons]
    generalize Search.relax node cost paths (s, frontier) a = state at hfirst
    obtain ⟨s', frontier'⟩ := state
    have hrest := ih hfirst.sized (by rwa [hfirst.sameAt.mark]) frontier' htodo
    refine ⟨hrest.sized, hrest.settled_eq.trans hfirst.settled_eq, hfirst.sameAt.trans hrest.sameAt,
      hrest.dependency_eq.trans hfirst.dependency_eq, ?_⟩
    have hlength : frontier'.length ≤ frontier.length + 1 := hfirst.length_le
    rw [List.length_cons]
    exact hrest.length_le.trans (by omega)

/-- The state of the search while the relationships of one node are followed, which has been settled at a
cost; `start` is what the buffers were. -/
structure Relaxing (r : CostReading κ) (relationships : Nat → List (Nat × κ)) (source nodeCount : Nat)
    (start : Search κ ρ) (before : List Nat) (node : Nat) (cost : κ) (done : List (Nat × κ))
    (state : Search κ ρ × List (Tentative κ)) : Prop where
  /-- The search is on its way. -/
  settling : Settling r relationships source nodeCount (followedUpTo (costWays r relationships) before node
    (done.map fun a => (a.1, r.value a.2))) state.1 state.2
  /-- The node has just been settled. -/
  settled_eq : state.1.settled = node :: before
  /-- Its cost is known. -/
  costOf_eq : r.value (state.1.costOf node) = r.value cost
  /-- Its paths have been counted. -/
  pathsTo_eq : state.1.pathsTo node = start.pathsTo node

theorem Relaxing.relax {start : Search κ ρ} {cost : κ} {done : List (Nat × κ)}
    {state : Search κ ρ × List (Tentative κ)}
    (h : Relaxing r relationships source nodeCount start before node cost done state)
    (hadds : AddsUp r relationships source) (hmem : (target, weight) ∈ relationships node)
    (htarget : target < nodeCount) {nodes : List Nat} (hnodes : ∀ v ∈ nodes, v ∈ before)
    (hcosts : Costs relationships source (node :: nodes) cost) :
    Relaxing r relationships source nodeCount start before node cost (done ++ [(target, weight)])
      (Search.relax node cost (start.pathsTo node) state (target, weight)) := by
  obtain ⟨s, frontier⟩ := state
  obtain ⟨hsettling, hsettled, hcost, hpaths⟩ := h
  dsimp only at hsettling hsettled hcost hpaths
  have hmark : s.mark node ≠ 0 := (hsettling.mark_iff node).mpr (hsettled ▸ List.mem_cons_self)
  have hkeeps := keeps_relax hsettling.sized htarget hmark node cost (start.pathsTo node) frontier weight
  constructor
  case settling =>
    rw [← hpaths, List.map_append, List.map_singleton]
    refine hsettling.relax hadds hsettled hcost hmem htarget ?_ hcosts (follows_followedUpTo _ _ _ _ _)
    rw [hsettled]
    exact List.forall_mem_cons.mpr ⟨List.mem_cons_self, fun v hv => List.mem_cons_of_mem _ (hnodes v hv)⟩
  case settled_eq => exact hkeeps.settled_eq.trans hsettled
  case costOf_eq => exact (congrArg r.value hkeeps.sameAt.costOf).trans hcost
  case pathsTo_eq => exact hkeeps.sameAt.pathsTo.trans hpaths

theorem Relaxing.foldl {start : Search κ ρ} {cost : κ} (hadds : AddsUp r relationships source)
    {nodes : List Nat} (hnodes : ∀ v ∈ nodes, v ∈ before)
    (hcosts : Costs relationships source (node :: nodes) cost) (todo : List (Nat × κ))
    (htodo : ∀ a ∈ todo, a ∈ relationships node ∧ a.1 < nodeCount) {done : List (Nat × κ)}
    {state : Search κ ρ × List (Tentative κ)}
    (h : Relaxing r relationships source nodeCount start before node cost done state) :
    Relaxing r relationships source nodeCount start before node cost (done ++ todo)
      (todo.foldl (Search.relax node cost (start.pathsTo node)) state) := by
  induction todo generalizing done state with
  | nil => rwa [List.append_nil]
  | cons a todo ih =>
    obtain ⟨hmem, hlt⟩ := htodo a List.mem_cons_self
    have hnext := ih (fun b hb => htodo b (List.mem_cons_of_mem _ hb)) (h.relax hadds hmem hlt hnodes hcosts)
    rwa [List.append_assoc] at hnext

/-- How many relationships the nodes have that are not settled yet. -/
def waiting (relationships : Nat → List (Nat × κ)) (nodeCount : Nat) (s : Search κ ρ) : Nat :=
  ∑ u ∈ Finset.range nodeCount \ s.settled.toFinset, (relationships u).length

omit [PathCost κ] in
theorem waiting_of_settled {s' : Search κ ρ} (hnode : node < nodeCount) (hnew : node ∉ s.settled)
    (hsettled : s'.settled = node :: s.settled) :
    (relationships node).length + waiting relationships nodeCount s' = waiting relationships nodeCount s := by
  have hmem : node ∈ Finset.range nodeCount \ s.settled.toFinset := by
    rw [Finset.mem_sdiff, Finset.mem_range, List.mem_toFinset]
    exact ⟨hnode, hnew⟩
  rw [waiting, waiting, ← Finset.add_sum_erase _ _ hmem, hsettled, List.toFinset_cons, Finset.sdiff_insert]

/-- The buffers when a node has been settled. -/
def settleNode (s : Search κ ρ) (node : Nat) : Search κ ρ :=
  { s with
    distance := s.distance.setIfInBounds node 1
    settled := node :: s.settled }

omit [PathCost κ] in
theorem sized_settleNode (h : s.Sized nodeCount true) (node : Nat) : (s.settleNode node).Sized nodeCount true :=
  ⟨h.paths, h.dependency, (Array.size_setIfInBounds ..).trans h.distance, h.cost, h.predecessors⟩

omit [PathCost κ] in
theorem mark_settleNode (h : s.Sized nodeCount true) (hnode : node < nodeCount) (v : Nat) :
    (s.settleNode node).mark v = if v = node then 1 else s.mark v :=
  getD_setIfInBounds (h.distance.symm ▸ hnode) 1 v 0

omit [PathCost κ] in
/-- Settled nodes stay marked, and no others are. -/
theorem mark_settleNode_iff (h : s.Sized nodeCount true) (hnode : node < nodeCount)
    (hmark : ∀ v, s.mark v ≠ 0 ↔ v ∈ s.settled) (v : Nat) :
    (s.settleNode node).mark v ≠ 0 ↔ v ∈ (s.settleNode node).settled := by
  rw [mark_settleNode h hnode]
  change _ ↔ v ∈ node :: s.settled
  rw [List.mem_cons, ← hmark]
  split
  · rename_i heq
    simp [heq]
  · rename_i heq
    simp [heq]

section

variable {entry : Tentative κ}

theorem settleNext_of_stale
    (hstale : s.mark entry.node ≠ 0 ∨ PathCost.less (s.costOf entry.node) entry.cost = true)
    (relationships : Nat → List (Nat × κ)) (frontier : List (Tentative κ)) :
    Search.settleNext relationships entry s frontier = (s, frontier) := if_pos hstale

theorem settleNext_of_live (hmark : s.mark entry.node = 0)
    (hless : ¬ PathCost.less (s.costOf entry.node) entry.cost = true) (relationships : Nat → List (Nat × κ))
    (frontier : List (Tentative κ)) :
    Search.settleNext relationships entry s frontier =
      (relationships entry.node).foldl (Search.relax entry.node entry.cost (s.pathsTo entry.node))
        (s.settleNode entry.node, frontier) :=
  if_neg (not_or.mpr ⟨not_not.mpr hmark, hless⟩)

/-- One entry less, or fewer relationships that have not been followed. -/
theorem settleNext_lt (h : s.Sized nodeCount true) (hmark : ∀ v, s.mark v ≠ 0 ↔ v ∈ s.settled)
    (htargets : ∀ u, ∀ a ∈ relationships u, a.1 < nodeCount) (hnode : entry.node < nodeCount) :
    let state := Search.settleNext relationships entry s frontier
    state.1.dependency = s.dependency ∧
      state.2.length + waiting relationships nodeCount state.1 <
        (entry :: frontier).length + waiting relationships nodeCount s := by
  by_cases hstale : s.mark entry.node ≠ 0 ∨ PathCost.less (s.costOf entry.node) entry.cost = true
  · rw [settleNext_of_stale hstale]
    exact ⟨rfl, Nat.add_lt_add_right (Nat.lt_succ_self _) _⟩
  · rw [not_or, not_not] at hstale
    obtain ⟨hnone, hless⟩ := hstale
    have hnew : entry.node ∉ s.settled := fun hin => (hmark _).mpr hin hnone
    have hmarked := (mark_settleNode_iff h hnode hmark entry.node).mpr List.mem_cons_self
    have hkeeps := keeps_foldl_relax (sized_settleNode h entry.node) hmarked entry.cost (s.pathsTo entry.node)
      frontier (relationships entry.node) (htargets entry.node)
    rw [settleNext_of_live hnone hless]
    refine ⟨hkeeps.dependency_eq, ?_⟩
    have hwaiting : (relationships entry.node).length + _ = waiting relationships nodeCount s :=
      waiting_of_settled hnode hnew hkeeps.settled_eq
    have hlength := hkeeps.length_le
    rw [List.length_cons]
    omega

end

/-- **The frontier runs empty in time**, and what every entry keeps holds at the end. -/
theorem settleAll_induction (Inv : Search κ ρ → List (Tentative κ) → Prop)
    (hbounds : ∀ s frontier, Inv s frontier → s.Sized nodeCount true ∧ (∀ v, s.mark v ≠ 0 ↔ v ∈ s.settled) ∧
      ∀ e ∈ frontier, e.node < nodeCount)
    (htargets : ∀ u, ∀ a ∈ relationships u, a.1 < nodeCount)
    (hstep : ∀ s entry frontier, Inv s (entry :: frontier) →
      Inv (Search.settleNext relationships entry s frontier).1 (Search.settleNext relationships entry s frontier).2)
    (steps : Nat) :
    ∀ s frontier, frontier.length + waiting relationships nodeCount s ≤ steps → Inv s frontier →
      Inv (Search.settleAll relationships steps s frontier) [] ∧
        (Search.settleAll relationships steps s frontier).dependency = s.dependency := by
  induction steps with
  | zero =>
    intro s frontier hsteps h
    have hnil : frontier = [] := List.eq_nil_of_length_eq_zero (by omega)
    subst hnil
    exact ⟨h, rfl⟩
  | succ steps ih =>
    intro s frontier hsteps h
    cases frontier with
    | nil => exact ⟨h, rfl⟩
    | cons entry frontier =>
      obtain ⟨hsized, hmark, hnodes⟩ := hbounds s _ h
      obtain ⟨hdependency, hless⟩ : _ ∧ _ + _ < (entry :: frontier).length + _ :=
        settleNext_lt hsized hmark htargets (hnodes entry List.mem_cons_self)
      obtain ⟨hend, hdependency'⟩ := ih _ _ (by omega) (hstep s entry frontier h)
      exact ⟨hend, hdependency'.trans hdependency⟩

namespace Settling

variable {entry : Tentative κ}

/-- An entry that is out of date can be dropped. -/
theorem drop (h : Settling r relationships source nodeCount followed s (entry :: frontier))
    (hadds : AddsUp r relationships source)
    (hstale : s.mark entry.node ≠ 0 ∨ PathCost.less (s.costOf entry.node) entry.cost = true) :
    Settling r relationships source nodeCount followed s frontier := by
  constructor
  case sized => exact h.sized
  case explored => exact h.explored
  case mark_iff => exact h.mark_iff
  case costs => exact fun e he => h.costs e (List.mem_cons_of_mem _ he)
  case reached => exact fun e he => h.reached e (List.mem_cons_of_mem _ he)
  case live =>
    intro v hv hvn
    obtain ⟨e, he, rfl, hvalue⟩ := h.live v hv hvn
    rcases List.mem_cons.mp he with rfl | he
    · rcases hstale with hmark | hless
      · exact absurd ((h.mark_iff _).mp hmark) hvn
      · have hlt := (r.less_iff _ _ hv (h.finite_cost hadds List.mem_cons_self)).mp hless
        rw [hvalue] at hlt
        exact absurd hlt (lt_irrefl _)
    · exact ⟨e, he, rfl, hvalue⟩
  case sorted => exact h.sorted.of_cons

/-- The first entry of the frontier that is up to date can be settled. -/
theorem settle (h : Settling r relationships source nodeCount followed s (entry :: frontier))
    (hadds : AddsUp r relationships source) (hmark : s.mark entry.node = 0)
    (hless : ¬ PathCost.less (s.costOf entry.node) entry.cost = true) :
    r.value (s.costOf entry.node) = r.value entry.cost ∧ entry.node ∉ s.settled ∧
      Settling r relationships source nodeCount followed (s.settleNode entry.node) frontier := by
  obtain ⟨hreached, hle⟩ := h.reached entry List.mem_cons_self
  have hnode := lt_of_finite h.sized hreached
  have hnew : entry.node ∉ s.settled := fun hin => (h.mark_iff _).mpr hin hmark
  have hvalue : r.value (s.costOf entry.node) = r.value entry.cost := by
    refine le_antisymm hle (not_lt.mp fun hlt => hless ?_)
    exact (r.less_iff _ _ hreached (h.finite_cost hadds List.mem_cons_self)).mpr hlt
  refine ⟨hvalue, hnew, ?_⟩
  constructor
  case sized => exact sized_settleNode h.sized _
  case explored =>
    refine h.explored.settle hreached hnew ?_ rfl
      (fun x hx => ⟨rfl, rfl, (mark_settleNode h.sized hnode x).trans (if_neg hx), rfl⟩) rfl rfl
    -- whatever has been reached stands in the frontier, and behind this entry
    intro x hx hxn
    obtain ⟨e, he, rfl, hcost⟩ := h.live x hx hxn
    rw [hvalue, ← hcost]
    rcases List.mem_cons.mp he with rfl | he
    · exact le_refl _
    · exact (List.pairwise_cons.mp h.sorted).1 e he
  case mark_iff => exact mark_settleNode_iff h.sized hnode h.mark_iff
  case costs =>
    intro e he
    obtain ⟨nodes, hnodes, hcosts⟩ := h.costs e (List.mem_cons_of_mem _ he)
    exact ⟨nodes, fun v hv => List.mem_cons_of_mem _ (hnodes v hv), hcosts⟩
  case reached => exact fun e he => h.reached e (List.mem_cons_of_mem _ he)
  case live =>
    intro v hv hvn
    obtain ⟨hne, hvn⟩ := not_or.mp (mt List.mem_cons.mpr hvn)
    obtain ⟨e, he, rfl, hcost⟩ := h.live v hv hvn
    rcases List.mem_cons.mp he with rfl | he
    · exact absurd rfl hne
    · exact ⟨e, he, rfl, hcost⟩
  case sorted => exact h.sorted.of_cons

/-- **One entry.**  It is dropped, or its node settled and expanded. -/
theorem settleNext (h : Settling r relationships source nodeCount
      (followedOf (costWays r relationships) s.settled) s (entry :: frontier))
    (hadds : AddsUp r relationships source)
    (htargets : ∀ u, ∀ a ∈ relationships u, a.1 < nodeCount) :
    let state := Search.settleNext relationships entry s frontier
    Settling r relationships source nodeCount (followedOf (costWays r relationships) state.1.settled) state.1
      state.2 := by
  by_cases hstale : s.mark entry.node ≠ 0 ∨ PathCost.less (s.costOf entry.node) entry.cost = true
  · rw [settleNext_of_stale hstale]
    exact h.drop hadds hstale
  · rw [not_or, not_not] at hstale
    obtain ⟨hmark, hless⟩ := hstale
    obtain ⟨hvalue, hnew, hsettling⟩ := h.settle hadds hmark hless
    obtain ⟨nodes, hnodes, hcosts⟩ := h.costs entry List.mem_cons_self
    rw [← followedUpTo_nil (costWays r relationships) hnew] at hsettling
    have hstart : Relaxing r relationships source nodeCount s s.settled entry.node entry.cost []
        (s.settleNode entry.node, frontier) :=
      ⟨hsettling, rfl, hvalue, rfl⟩
    have hend := hstart.foldl hadds hnodes hcosts (relationships entry.node)
      fun a ha => ⟨ha, htargets entry.node a ha⟩
    rw [settleNext_of_live hmark hless]
    dsimp only
    rw [hend.settled_eq, ← followedUpTo_self]
    exact hend.settling

end Settling

/-! ## The whole search -/

section

variable [Reckoning ρ]

/-- New buffers in which the source has been reached. -/
def opened (nodeCount source : Nat) : Search κ ρ :=
  { (new nodeCount true : Search κ ρ) with
    paths := (Array.replicate nodeCount 0).setIfInBounds source 1
    cost := (Array.replicate nodeCount (PathCost.unreached : κ)).setIfInBounds source PathCost.zero }

theorem cheapestFirst_new (relationships : Nat → List (Nat × κ)) (count nodeCount source : Nat) :
    (new nodeCount true : Search κ ρ).cheapestFirst relationships count source =
      settleAll relationships (count + 2) (opened nodeCount source) [⟨PathCost.zero, source⟩] := rfl

theorem sized_opened (nodeCount source : Nat) : (opened nodeCount source : Search κ ρ).Sized nodeCount true :=
  have hnew : (new nodeCount true : Search κ ρ).Sized nodeCount true := sized_new _ _
  ⟨(Array.size_setIfInBounds ..).trans hnew.paths, hnew.dependency, hnew.distance,
    (Array.size_setIfInBounds ..).trans hnew.cost, hnew.predecessors⟩

theorem costOf_opened (hsource : source < nodeCount) (v : Nat) :
    (opened nodeCount source : Search κ ρ).costOf v = if v = source then PathCost.zero else PathCost.unreached :=
  getD_setIfInBounds_replicate hsource PathCost.unreached PathCost.zero v

theorem pathsTo_opened (hsource : source < nodeCount) (v : Nat) :
    (opened nodeCount source : Search κ ρ).pathsTo v = if v = source then 1 else 0 :=
  getD_setIfInBounds_replicate hsource 0 1 v

/-- Nothing is noted about the other nodes. -/
theorem untouched_opened (hsource : source < nodeCount) {v : Nat} (hv : v ≠ source) :
    (opened nodeCount source : Search κ ρ).Untouched v :=
  have hnew := untouched_new (κ := κ) (ρ := ρ) nodeCount true v
  ⟨by rw [pathsTo_opened hsource, if_neg hv], hnew.predecessorsOf, hnew.mark, by
    rw [costOf_opened hsource, if_neg hv]⟩

theorem predecessorsOf_opened (nodeCount source v : Nat) :
    (opened nodeCount source : Search κ ρ).predecessorsOf v = [] :=
  (untouched_new (κ := κ) (ρ := ρ) nodeCount true v).predecessorsOf

theorem mark_opened (nodeCount source v : Nat) : (opened nodeCount source : Search κ ρ).mark v = 0 :=
  (untouched_new (κ := κ) (ρ := ρ) nodeCount true v).mark

theorem mark_opened_iff (nodeCount source v : Nat) :
    (opened nodeCount source : Search κ ρ).mark v ≠ 0 ↔ v ∈ (opened nodeCount source : Search κ ρ).settled := by
  rw [mark_opened]
  exact ⟨fun h => absurd rfl h, fun h => absurd h List.not_mem_nil⟩

/-- The first frontier is the source. -/
theorem settling_opened (r : CostReading κ) (relationships : Nat → List (Nat × κ)) (hsource : source < nodeCount)
    (ways : Ways) : Settling r relationships source nodeCount (followedOf ways [])
      (opened nodeCount source : Search κ ρ) [⟨PathCost.zero, source⟩] := by
  have hcost := costOf_opened (κ := κ) (ρ := ρ) hsource
  have hreached : ∀ v, r.finite ((opened nodeCount source : Search κ ρ).costOf v) ↔ v = source := by
    intro v
    rw [hcost]
    split
    · rename_i heq
      simp only [heq, r.finite_zero]
    · rename_i heq
      simp only [heq, r.not_finite_unreached]
  have hzero : r.value ((opened nodeCount source : Search κ ρ).costOf source) = 0 := by
    rw [hcost, if_pos rfl, r.value_zero]
  constructor
  case sized => exact sized_opened _ _
  case explored =>
    rw [followedOf_nil]
    refine Explored.start rfl hreached hzero ?_ (predecessorsOf_opened _ _ _) fun v hv => untouched_opened hsource hv
    rw [pathsTo_opened hsource, if_pos rfl]
  case mark_iff => exact mark_opened_iff _ _
  case costs =>
    intro e he
    obtain rfl := List.mem_singleton.mp he
    exact ⟨[], fun v hv => absurd hv List.not_mem_nil, .start⟩
  case reached =>
    intro e he
    obtain rfl := List.mem_singleton.mp he
    refine ⟨(hreached source).mpr rfl, ?_⟩
    rw [hzero, r.value_zero]
  case live =>
    intro v hv _
    obtain rfl := (hreached v).mp hv
    exact ⟨_, List.mem_singleton.mpr rfl, rfl, r.value_zero.trans hzero.symm⟩
  case sorted => exact List.pairwise_singleton _ _

/-- **What every entry keeps holds when the search is over**, and nothing has been added up by then. -/
theorem cheapestFirst_induction (Inv : Search κ ρ → List (Tentative κ) → Prop)
    (hbounds : ∀ s frontier, Inv s frontier → s.Sized nodeCount true ∧ (∀ v, s.mark v ≠ 0 ↔ v ∈ s.settled) ∧
      ∀ e ∈ frontier, e.node < nodeCount)
    (htargets : ∀ u, ∀ a ∈ relationships u, a.1 < nodeCount)
    (hstep : ∀ s entry frontier, Inv s (entry :: frontier) →
      Inv (settleNext relationships entry s frontier).1 (settleNext relationships entry s frontier).2)
    {count : Nat} (hcount : ∑ u ∈ Finset.range nodeCount, (relationships u).length ≤ count)
    (h : Inv (opened nodeCount source) [⟨PathCost.zero, source⟩]) :
    let s := (new nodeCount true : Search κ ρ).cheapestFirst relationships count source
    Inv s [] ∧ ∀ v, s.dependencyOf v = Reckoning.ofCount 0 := by
  have hwaiting : waiting relationships nodeCount (opened nodeCount source : Search κ ρ) ≤ count :=
    (Finset.sum_le_sum_of_subset Finset.sdiff_subset).trans hcount
  rw [cheapestFirst_new]
  obtain ⟨hend, hdependency⟩ := settleAll_induction Inv hbounds htargets hstep (count + 2)
    (opened nodeCount source) [⟨PathCost.zero, source⟩] (by rw [List.length_singleton]; omega) h
  refine ⟨hend, fun v => ?_⟩
  rw [dependencyOf, hdependency]
  exact getD_replicate_self ..

/-- When the search is over, it has been on its way all the time, and the frontier is empty. -/
theorem settling_cheapestFirst (hadds : AddsUp r relationships source)
    (htargets : ∀ u, ∀ a ∈ relationships u, a.1 < nodeCount) (hsource : source < nodeCount) {count : Nat}
    (hcount : ∑ u ∈ Finset.range nodeCount, (relationships u).length ≤ count) :
    let s := (new nodeCount true : Search κ ρ).cheapestFirst relationships count source
    Settling r relationships source nodeCount (followedOf (costWays r relationships) s.settled) s [] ∧
      ∀ v, s.dependencyOf v = Reckoning.ofCount 0 :=
  cheapestFirst_induction (ρ := ρ) (fun s frontier =>
      Settling r relationships source nodeCount (followedOf (costWays r relationships) s.settled) s frontier)
    (fun _ _ h => ⟨h.sized, h.mark_iff, fun e he => lt_of_finite h.sized (h.reached e he).1⟩) htargets
    (fun _ _ _ h => h.settleNext hadds htargets) hcount (settling_opened r relationships hsource _)

omit [Reckoning ρ] in
/-- When the frontier is empty, exactly the nodes that have been reached are settled. -/
theorem Settling.mem_settled_iff (h : Settling r relationships source nodeCount followed s []) (v : Nat) :
    v ∈ s.settled ↔ r.finite (s.costOf v) := by
  refine ⟨h.explored.reached_of_mem v, fun hv => ?_⟩
  by_contra hvn
  obtain ⟨e, he, -⟩ := h.live v hv hvn
  exact absurd he List.not_mem_nil

/-- **Dijkstra's search finds everything.**  The costs are the distances. -/
theorem complete_cheapestFirst (hadds : AddsUp r relationships source)
    (htargets : ∀ u, ∀ a ∈ relationships u, a.1 < nodeCount) (hsource : source < nodeCount) {count : Nat}
    (hcount : ∑ u ∈ Finset.range nodeCount, (relationships u).length ≤ count) :
    let s := (new nodeCount true : Search κ ρ).cheapestFirst relationships count source
    s.Complete nodeCount true (costWays r relationships) source fun v => r.value (s.costOf v) := by
  obtain ⟨hend, hdependency⟩ := settling_cheapestFirst (ρ := ρ) hadds htargets hsource hcount
  constructor
  case found =>
    exact hend.explored.found hadds.positive_costWays (fun v => (hend.mem_settled_iff v).mpr) fun u hu => if_pos hu
  case sized => exact hend.sized
  case dependencyOf => exact hdependency
  case settled_lt => exact fun v hv => lt_of_finite hend.sized (hend.explored.reached_of_mem v hv)

end

end Search

end PackedGraph
