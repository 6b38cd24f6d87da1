import PackedGraph.Proofs.Analysis.CheapestFirst
import PackedGraph.Proofs.Analysis.Clearing

/-!
# Searching by rounded costs

Sums of doubles are rounded, and may become infinite.  What Dijkstra's search needs of them is little: costs
are ranked, a sum is no less than what a weight is added to, and it grows with it (`CostRank`).  Infinity has
the rank of the nodes that have not been reached.

So the search settles the nodes to which some walk has a finite cost (`Search.Underway.mem_settled_iff`).  A
relationship that leads on to infinity is as cheap as not reaching its target at all, and one of equal cost
joins those found before: the target gets a predecessor without ever being put into the frontier.  Such targets
are the only nodes about which something is noted without their being settled (`Search.Underway.untouched_iff`).

Main statement: `Search.accumulate_cheapestFirst_eq_new_iff`.
-/

namespace PackedGraph

variable {κ : Type} [PathCost κ]

/-- How costs are ranked whose sums may be rounded. -/
structure CostRank (κ : Type) [PathCost κ] (P : Type) [LinearOrder P] [OrderTop P] where
  /-- What can be a cost. -/
  sound : κ → Prop
  /-- Its rank. -/
  rank : κ → P
  /-- What can be a weight. -/
  usable : κ → Prop
  /-- Staying at the source has a cost, -/
  sound_zero : sound PathCost.zero
  /-- which is finite. -/
  rank_zero_lt : rank PathCost.zero < ⊤
  /-- Not being reached has one, -/
  sound_unreached : sound PathCost.unreached
  /-- which is not. -/
  rank_unreached : rank PathCost.unreached = ⊤
  /-- Costs are compared by their ranks, -/
  less_iff : ∀ a b, sound a → sound b → (PathCost.less a b = true ↔ rank a < rank b)
  /-- and are equal where these are. -/
  same_iff : ∀ a b, sound a → sound b → (PathCost.same a b = true ↔ rank a = rank b)
  /-- A sum is a cost again, -/
  sound_add : ∀ c w, sound c → usable w → sound (PathCost.add c w)
  /-- no less than before, -/
  le_add : ∀ c w, sound c → usable w → rank c ≤ rank (PathCost.add c w)
  /-- and grows with what was there before. -/
  add_le_add : ∀ c c' w, sound c → sound c' → rank c ≤ rank c' → usable w →
    rank (PathCost.add c w) ≤ rank (PathCost.add c' w)

/-- The cost of a walk from the source to a node, as it is added up on the way. -/
inductive WalkCost (relationships : Nat → List (Nat × κ)) (source : Nat) : Nat → κ → Prop where
  | start : WalkCost relationships source source PathCost.zero
  | step {u v : Nat} {c w : κ} : WalkCost relationships source u c → (v, w) ∈ relationships u →
      WalkCost relationships source v (PathCost.add c w)

variable {P : Type} [LinearOrder P] [OrderTop P] {o : CostRank κ P}

theorem WalkCost.sound {relationships : Nat → List (Nat × κ)} {source : Nat}
    (husable : ∀ u, ∀ a ∈ relationships u, o.usable a.2) {v : Nat} {c : κ} (h : WalkCost relationships source v c) :
    o.sound c := by
  induction h with
  | start => exact o.sound_zero
  | step _ hmem ih => exact o.sound_add _ _ ih (husable _ _ hmem)

namespace Search

variable {ρ : Type} {relationships : Nat → List (Nat × κ)} {s : Search κ ρ}
  {source nodeCount node target : Nat} {followed followed' : Nat → Nat × κ → Prop} {frontier : List (Tentative κ)}
  {before : List Nat} {weight cost : κ}

/-! ## The search at work -/

/-- The search is on its way, with a frontier, some relationships having been followed. -/
structure Underway (o : CostRank κ P) (relationships : Nat → List (Nat × κ)) (source nodeCount : Nat)
    (followed : Nat → Nat × κ → Prop) (s : Search κ ρ) (frontier : List (Tentative κ)) : Prop where
  /-- The buffers have their sizes. -/
  sized : s.Sized nodeCount true
  /-- No node is settled twice. -/
  nodup : s.settled.Nodup
  /-- Settled nodes are marked, and no others. -/
  mark_iff : ∀ v, s.mark v ≠ 0 ↔ v ∈ s.settled
  /-- All costs can be compared. -/
  sound : ∀ v, o.sound (s.costOf v)
  /-- The source has been reached. -/
  source_reached : o.rank (s.costOf source) ≤ o.rank PathCost.zero
  /-- Finite costs are those of walks. -/
  walk : ∀ v, o.rank (s.costOf v) < ⊤ → WalkCost relationships source v (s.costOf v)
  /-- The costs of settled nodes are finite, -/
  finite : ∀ u ∈ s.settled, o.rank (s.costOf u) < ⊤
  /-- and no more than those of other nodes. -/
  near : ∀ u ∈ s.settled, ∀ v, v ∉ s.settled → o.rank (s.costOf u) ≤ o.rank (s.costOf v)
  /-- Only relationships of settled nodes have been followed. -/
  followed_settled : ∀ u a, followed u a → u ∈ s.settled
  /-- They are no shortcuts. -/
  step : ∀ u a, followed u a → o.rank (s.costOf a.1) ≤ o.rank (PathCost.add (s.costOf u) a.2)
  /-- If they lead on to infinity, they have been noted all the same. -/
  noted : ∀ u a, followed u a → o.rank (s.costOf a.1) = ⊤ → s.predecessorsOf a.1 ≠ []
  /-- The nodes in front of a node that is not settled are settled, and lead to it. -/
  front : ∀ v, v ∉ s.settled → ∀ u ∈ s.predecessorsOf v, u ∈ s.settled ∧ ∃ w, (v, w) ∈ relationships u
  /-- Those in front of a settled node were settled before it. -/
  earlier : ∀ behind v rest, s.settled = behind ++ v :: rest → ∀ u ∈ s.predecessorsOf v, u ∈ rest
  /-- Nothing is noted about a node that has not been reached and has no predecessor. -/
  untouched : ∀ v, o.rank (s.costOf v) = ⊤ → s.predecessorsOf v = [] → s.Untouched v
  /-- Every entry is that of a walk of finite cost, -/
  entry : ∀ e ∈ frontier, WalkCost relationships source e.node e.cost ∧ o.sound e.cost ∧ o.rank e.cost < ⊤
  /-- and its node has been reached at this cost or a lower one. -/
  reached : ∀ e ∈ frontier, o.rank (s.costOf e.node) ≤ o.rank e.cost
  /-- Every node that has been reached and is not settled stands in the frontier at its cost. -/
  live : ∀ v, v ∉ s.settled → o.rank (s.costOf v) < ⊤ →
    ∃ e ∈ frontier, e.node = v ∧ o.rank e.cost = o.rank (s.costOf v)
  /-- The frontier is sorted. -/
  sorted : frontier.Pairwise fun a b => o.rank a.cost ≤ o.rank b.cost

/-- One more relationship of a node has been followed. -/
def FollowsOn (followed followed' : Nat → Nat × κ → Prop) (node : Nat) (a : Nat × κ) : Prop :=
  ∀ u b, followed' u b ↔ followed u b ∨ u = node ∧ b = a

theorem lt_of_rank (h : s.Sized nodeCount true) (hfinite : o.rank (s.costOf node) < ⊤) : node < nodeCount := by
  by_contra hge
  have hnone : s.costOf node = PathCost.unreached := by
    refine getD_of_le ?_ _
    rw [h.cost, if_pos rfl]
    exact Nat.le_of_not_lt hge
  rw [hnone, o.rank_unreached] at hfinite
  exact absurd hfinite (lt_irrefl _)

namespace Underway

/-! ## One relationship -/

/-- A relationship that changes nothing. -/
theorem pass (h : Underway o relationships source nodeCount followed s frontier) (hnode : node ∈ s.settled)
    (hfollows : FollowsOn followed followed' node (target, weight))
    (hstep : o.rank (s.costOf target) ≤ o.rank (PathCost.add (s.costOf node) weight))
    (hnoted : o.rank (s.costOf target) = ⊤ → s.predecessorsOf target ≠ []) :
    Underway o relationships source nodeCount followed' s frontier := by
  refine { h with followed_settled := ?_, step := ?_, noted := ?_ }
  · intro u a ha
    rcases (hfollows u a).mp ha with ha | ⟨rfl, rfl⟩
    · exact h.followed_settled u a ha
    · exact hnode
  · intro u a ha
    rcases (hfollows u a).mp ha with ha | ⟨rfl, rfl⟩
    · exact h.step u a ha
    · exact hstep
  · intro u a ha
    rcases (hfollows u a).mp ha with ha | ⟨rfl, rfl⟩
    · exact h.noted u a ha
    · exact hnoted

/-- One more predecessor of a node that is not settled. -/
theorem join (h : Underway o relationships source nodeCount followed s frontier) (hnode : node ∈ s.settled)
    (hmem : (target, weight) ∈ relationships node) (htarget : target < nodeCount) (hnew : target ∉ s.settled)
    (paths : Nat) : Underway o relationships source nodeCount followed (s.addPredecessor target node paths)
      frontier := by
  have hsame : ∀ x, x ≠ target → s.SameAt (s.addPredecessor target node paths) x :=
    fun x hx => sameAt_addPredecessor s hx _ _
  have hpredecessors := predecessorsOf_addPredecessor h.sized htarget node paths
  refine { h with sized := h.sized.addPredecessor _ _ _, noted := ?_, front := ?_, earlier := ?_, untouched := ?_ }
  · intro u a ha htop
    by_cases heq : a.1 = target
    · rw [heq, hpredecessors]
      exact List.cons_ne_nil _ _
    · rw [(hsame _ heq).predecessorsOf]
      exact h.noted u a ha htop
  · intro v hv u hu
    by_cases heq : v = target
    · subst heq
      rw [hpredecessors] at hu
      rcases List.mem_cons.mp hu with rfl | hu
      · exact ⟨hnode, weight, hmem⟩
      · exact h.front v hv u hu
    · rw [(hsame _ heq).predecessorsOf] at hu
      exact h.front v hv u hu
  · intro behind v rest hsettled
    have hv : v ∈ s.settled := by
      change s.settled = _ at hsettled
      rw [hsettled]
      simp
    rw [(hsame v fun heq => hnew (heq ▸ hv)).predecessorsOf]
    exact h.earlier behind v rest hsettled
  · intro v htop hnil
    by_cases heq : v = target
    · rw [heq, hpredecessors] at hnil
      exact absurd hnil (List.cons_ne_nil _ _)
    · have hstay := hsame v heq
      rw [hstay.predecessorsOf] at hnil
      exact (h.untouched v htop hnil).of_sameAt hstay

/-! ### A cheaper way -/

/-- A cheaper way makes nothing dearer. -/
theorem rank_replaceWay_le (h : s.Sized nodeCount true) (htarget : target < nodeCount) {candidate : κ}
    (hless : o.rank candidate < o.rank (s.costOf target)) (node paths x : Nat) :
    o.rank ((s.replaceWay target node paths candidate).costOf x) ≤ o.rank (s.costOf x) := by
  rw [costOf_replaceWay h htarget]
  split
  · rename_i heq
    rw [heq]
    exact hless.le
  · exact le_refl _

/-- Finite costs are those of walks, that of the cheaper way included. -/
theorem walk_replaceWay (h : Underway o relationships source nodeCount followed s frontier)
    (htarget : target < nodeCount) {candidate : κ} (hwalk : WalkCost relationships source target candidate)
    (node paths : Nat) {v : Nat} (hv : o.rank ((s.replaceWay target node paths candidate).costOf v) < ⊤) :
    WalkCost relationships source v ((s.replaceWay target node paths candidate).costOf v) := by
  rw [costOf_replaceWay h.sized htarget] at hv ⊢
  split at hv
  · rename_i heq
    rw [if_pos heq, heq]
    exact hwalk
  · rename_i heq
    rw [if_neg heq]
    exact h.walk v hv

/-- Settled nodes stay nearer than the others if the cheaper way is no shorter than theirs. -/
theorem near_replaceWay (h : Underway o relationships source nodeCount followed s frontier)
    (htarget : target < nodeCount) (hnew : target ∉ s.settled) {candidate : κ}
    (hfar : ∀ u ∈ s.settled, o.rank (s.costOf u) ≤ o.rank candidate) (node paths : Nat) {u v : Nat}
    (hu : u ∈ s.settled) (hv : v ∉ s.settled) :
    o.rank ((s.replaceWay target node paths candidate).costOf u) ≤
      o.rank ((s.replaceWay target node paths candidate).costOf v) := by
  have hne : u ≠ target := fun heq => hnew (heq ▸ hu)
  rw [costOf_replaceWay h.sized htarget, if_neg hne, costOf_replaceWay h.sized htarget]
  split
  · exact hfar u hu
  · exact h.near u hu v hv

/-- A target that stays infinite has kept its predecessors. -/
theorem noted_replaceWay (h : Underway o relationships source nodeCount followed s frontier)
    (htarget : target < nodeCount) (node paths : Nat) (candidate : κ) {u : Nat} {a : Nat × κ} (ha : followed u a)
    (htop : o.rank ((s.replaceWay target node paths candidate).costOf a.1) = ⊤) :
    (s.replaceWay target node paths candidate).predecessorsOf a.1 ≠ [] := by
  rw [costOf_replaceWay h.sized htarget] at htop
  rw [predecessorsOf_replaceWay h.sized htarget]
  split
  · exact List.cons_ne_nil _ _
  · rename_i heq
    rw [if_neg heq] at htop
    exact h.noted u a ha htop

/-- The only node in front of the target is the one by which the cheaper way leads. -/
theorem front_replaceWay (h : Underway o relationships source nodeCount followed s frontier)
    (hnode : node ∈ s.settled) (hmem : (target, weight) ∈ relationships node) (htarget : target < nodeCount)
    (paths : Nat) (candidate : κ) {u v : Nat} (hv : v ∉ s.settled)
    (hu : u ∈ (s.replaceWay target node paths candidate).predecessorsOf v) :
    u ∈ s.settled ∧ ∃ w, (v, w) ∈ relationships u := by
  rw [predecessorsOf_replaceWay h.sized htarget] at hu
  split at hu
  · rename_i heq
    obtain rfl := List.mem_singleton.mp hu
    exact ⟨hnode, weight, heq ▸ hmem⟩
  · exact h.front v hv u hu

/-- Nodes without cost and predecessor are as they were. -/
theorem untouched_replaceWay (h : Underway o relationships source nodeCount followed s frontier)
    (htarget : target < nodeCount) (node paths : Nat) (candidate : κ) {v : Nat}
    (htop : o.rank ((s.replaceWay target node paths candidate).costOf v) = ⊤)
    (hnil : (s.replaceWay target node paths candidate).predecessorsOf v = []) :
    (s.replaceWay target node paths candidate).Untouched v := by
  rw [predecessorsOf_replaceWay h.sized htarget] at hnil
  split at hnil
  · exact absurd hnil (List.cons_ne_nil _ _)
  · rename_i heq
    rw [costOf_replaceWay h.sized htarget, if_neg heq] at htop
    exact (h.untouched v htop hnil).of_sameAt (sameAt_replaceWay h.sized htarget _ _ _ heq)

/-- The target stands in the frontier at its new cost, and other nodes at theirs. -/
theorem live_replaceWay (h : Underway o relationships source nodeCount followed s frontier)
    (htarget : target < nodeCount) (node paths : Nat) (candidate : κ) {v : Nat} (hv : v ∉ s.settled)
    (hfinite : o.rank ((s.replaceWay target node paths candidate).costOf v) < ⊤) :
    ∃ e ∈ Tentative.insert ⟨candidate, target⟩ frontier, e.node = v ∧
      o.rank e.cost = o.rank ((s.replaceWay target node paths candidate).costOf v) := by
  rw [costOf_replaceWay h.sized htarget] at hfinite ⊢
  split at hfinite
  · rename_i heq
    rw [if_pos heq]
    exact ⟨_, mem_insert.mpr (.inl rfl), heq.symm, rfl⟩
  · rename_i heq
    rw [if_neg heq]
    obtain ⟨e, he, hnode, hrank⟩ := h.live v hv hfinite
    exact ⟨e, mem_insert.mpr (.inr he), hnode, hrank⟩

/-- A cheaper way to a node that is not settled. -/
theorem replace (h : Underway o relationships source nodeCount followed s frontier) (hnode : node ∈ s.settled)
    (hmem : (target, weight) ∈ relationships node) (htarget : target < nodeCount) (hnew : target ∉ s.settled)
    {candidate : κ} (hwalk : WalkCost relationships source target candidate) (hsound : o.sound candidate)
    (hless : o.rank candidate < o.rank (s.costOf target))
    (hfar : ∀ u ∈ s.settled, o.rank (s.costOf u) ≤ o.rank candidate) (paths : Nat) :
    Underway o relationships source nodeCount followed (s.replaceWay target node paths candidate)
      (Tentative.insert ⟨candidate, target⟩ frontier) := by
  have hcost := costOf_replaceWay h.sized htarget node paths candidate
  have hle := rank_replaceWay_le h.sized htarget hless node paths
  have hne : ∀ u ∈ s.settled, u ≠ target := fun u hu heq => hnew (heq ▸ hu)
  constructor
  case sized => exact sized_replaceWay h.sized _ _ _ _
  case nodup => exact h.nodup
  case mark_iff => exact h.mark_iff
  case sound =>
    intro v
    rw [hcost]
    split
    · exact hsound
    · exact h.sound v
  case source_reached => exact (hle source).trans h.source_reached
  case walk => exact fun v hv => h.walk_replaceWay htarget hwalk node paths hv
  case finite => exact fun u hu => (hle u).trans_lt (h.finite u hu)
  case near => exact fun u hu v hv => h.near_replaceWay htarget hnew hfar node paths hu hv
  case followed_settled => exact h.followed_settled
  case step =>
    intro u a ha
    rw [hcost u, if_neg (hne u (h.followed_settled u a ha))]
    exact (hle a.1).trans (h.step u a ha)
  case noted => exact fun u a ha htop => h.noted_replaceWay htarget node paths candidate ha htop
  case front => exact fun v hv u hu => h.front_replaceWay hnode hmem htarget paths candidate hv hu
  case earlier =>
    intro behind v rest hsettled
    have hv : v ∈ s.settled := by
      change s.settled = _ at hsettled
      rw [hsettled]
      simp
    rw [predecessorsOf_replaceWay h.sized htarget, if_neg (hne v hv)]
    exact h.earlier behind v rest hsettled
  case untouched => exact fun v htop hnil => h.untouched_replaceWay htarget node paths candidate htop hnil
  case entry =>
    intro e he
    rcases mem_insert.mp he with rfl | he
    · exact ⟨hwalk, hsound, hless.trans_le le_top⟩
    · exact h.entry e he
  case reached =>
    intro e he
    rcases mem_insert.mp he with rfl | he
    · rw [hcost, if_pos rfl]
    · exact (hle e.node).trans (h.reached e he)
  case live => exact fun v hv hfinite => h.live_replaceWay htarget node paths candidate hv hfinite
  case sorted => exact sorted_insert o.less_iff hsound (fun e he => (h.entry e he).2.1) h.sorted

/-! ### All cases -/

/-- **One relationship.**  It leads to a settled node, or it is a cheaper way than those known, or as cheap
as they are, be it infinite, or dearer. -/
theorem relax (h : Underway o relationships source nodeCount followed s frontier) (hnode : node ∈ s.settled)
    (hrank : o.rank (s.costOf node) = o.rank cost) (hwalk : WalkCost relationships source node cost)
    (hsound : o.sound cost) (hfar : ∀ u ∈ s.settled, o.rank (s.costOf u) ≤ o.rank cost)
    (hmem : (target, weight) ∈ relationships node) (husable : o.usable weight) (htarget : target < nodeCount)
    (hfollows : FollowsOn followed followed' node (target, weight)) (paths : Nat) :
    let state := Search.relax node cost paths (s, frontier) (target, weight)
    Underway o relationships source nodeCount followed' state.1 state.2 := by
  have hcandidate := o.sound_add _ _ hsound husable
  have hbeyond : ∀ u ∈ s.settled, o.rank (s.costOf u) ≤ o.rank (PathCost.add cost weight) :=
    fun u hu => (hfar u hu).trans (o.le_add _ _ hsound husable)
  have hsum : o.rank (PathCost.add cost weight) ≤ o.rank (PathCost.add (s.costOf node) weight) :=
    o.add_le_add _ _ _ hsound (h.sound node) hrank.ge husable
  by_cases hmark : s.mark target = 0
  · have hnew : target ∉ s.settled := fun hin => (h.mark_iff target).mpr hin hmark
    have hne : node ≠ target := fun heq => hnew (heq ▸ hnode)
    by_cases hless : PathCost.less (PathCost.add cost weight) (s.costOf target) = true
    · rw [relax_of_less hmark hless]
      have hlt := (o.less_iff _ _ hcandidate (h.sound target)).mp hless
      refine (h.replace hnode hmem htarget hnew (hwalk.step hmem) hcandidate hlt hbeyond paths).pass hnode
        hfollows ?_ fun _ => ?_
      · rw [costOf_replaceWay h.sized htarget, costOf_replaceWay h.sized htarget, if_pos rfl, if_neg hne]
        exact hsum
      · rw [predecessorsOf_replaceWay h.sized htarget, if_pos rfl]
        exact List.cons_ne_nil _ _
    · have hle : o.rank (s.costOf target) ≤ o.rank (PathCost.add cost weight) :=
        not_lt.mp fun hlt => hless ((o.less_iff _ _ hcandidate (h.sound target)).mpr hlt)
      by_cases hsame : PathCost.same (PathCost.add cost weight) (s.costOf target) = true
      · rw [relax_of_same hmark hless hsame]
        refine (h.join hnode hmem htarget hnew paths).pass hnode hfollows (hle.trans hsum) fun _ => ?_
        rw [predecessorsOf_addPredecessor h.sized htarget]
        exact List.cons_ne_nil _ _
      · rw [relax_of_dearer hmark hless hsame]
        have hne : o.rank (PathCost.add cost weight) ≠ o.rank (s.costOf target) :=
          fun heq => hsame ((o.same_iff _ _ hcandidate (h.sound target)).mpr heq)
        exact h.pass hnode hfollows (hle.trans hsum) fun htop =>
          absurd (top_le_iff.mp (htop ▸ hle)) (htop ▸ hne)
  · rw [relax_of_settled hmark]
    have hin : target ∈ s.settled := (h.mark_iff target).mp hmark
    exact h.pass hnode hfollows ((hbeyond target hin).trans hsum) fun htop =>
      absurd htop (h.finite target hin).ne

end Underway

/-! ## One node -/

/-- The state of the search while the relationships of one node are followed, which has been settled at a
cost. -/
structure Following (o : CostRank κ P) (relationships : Nat → List (Nat × κ)) (source nodeCount : Nat)
    (before : List Nat) (node : Nat) (cost : κ) (done : List (Nat × κ))
    (state : Search κ ρ × List (Tentative κ)) : Prop where
  /-- The search is on its way. -/
  underway : Underway o relationships source nodeCount
    (fun u a => u ∈ before ∧ a ∈ relationships u ∨ u = node ∧ a ∈ done) state.1 state.2
  /-- The node has just been settled. -/
  settled_eq : state.1.settled = node :: before
  /-- Its cost is known. -/
  rank_eq : o.rank (state.1.costOf node) = o.rank cost
  /-- No settled node is farther. -/
  far : ∀ u ∈ state.1.settled, o.rank (state.1.costOf u) ≤ o.rank cost

theorem Following.relax {done : List (Nat × κ)} {state : Search κ ρ × List (Tentative κ)}
    (h : Following o relationships source nodeCount before node cost done state)
    (hwalk : WalkCost relationships source node cost) (hsound : o.sound cost)
    (hmem : (target, weight) ∈ relationships node) (husable : o.usable weight) (htarget : target < nodeCount)
    (paths : Nat) :
    Following o relationships source nodeCount before node cost (done ++ [(target, weight)])
      (Search.relax node cost paths state (target, weight)) := by
  obtain ⟨s, frontier⟩ := state
  obtain ⟨hunderway, hsettled, hrank, hfar⟩ := h
  dsimp only at hunderway hsettled hrank hfar
  have hnode : node ∈ s.settled := hsettled ▸ List.mem_cons_self
  have hkeeps : ∀ x ∈ s.settled, Keeps nodeCount x s (frontier.length + 1)
      (Search.relax node cost paths (s, frontier) (target, weight)) := fun x hx =>
    keeps_relax hunderway.sized htarget ((hunderway.mark_iff x).mpr hx) node cost paths frontier weight
  have hfollows : FollowsOn (fun u a => u ∈ before ∧ a ∈ relationships u ∨ u = node ∧ a ∈ done)
      (fun u a => u ∈ before ∧ a ∈ relationships u ∨ u = node ∧ a ∈ done ++ [(target, weight)]) node
      (target, weight) := by
    intro u a
    simp only [List.mem_append, List.mem_singleton]
    tauto
  constructor
  case underway => exact hunderway.relax hnode hrank hwalk hsound hfar hmem husable htarget hfollows paths
  case settled_eq => exact (hkeeps node hnode).settled_eq.trans hsettled
  case rank_eq => exact (congrArg o.rank (hkeeps node hnode).sameAt.costOf).trans hrank
  case far =>
    intro u hu
    rw [(hkeeps node hnode).settled_eq] at hu
    rw [(hkeeps u hu).sameAt.costOf]
    exact hfar u hu

theorem Following.foldl (hwalk : WalkCost relationships source node cost) (hsound : o.sound cost)
    (todo : List (Nat × κ)) (htodo : ∀ a ∈ todo, a ∈ relationships node ∧ o.usable a.2 ∧ a.1 < nodeCount)
    (paths : Nat) {done : List (Nat × κ)} {state : Search κ ρ × List (Tentative κ)}
    (h : Following o relationships source nodeCount before node cost done state) :
    Following o relationships source nodeCount before node cost (done ++ todo)
      (todo.foldl (Search.relax node cost paths) state) := by
  induction todo generalizing done state with
  | nil => rwa [List.append_nil]
  | cons a todo ih =>
    obtain ⟨⟨hmem, husable, hlt⟩, htodo⟩ := List.forall_mem_cons.mp htodo
    have hnext := ih htodo (h.relax hwalk hsound hmem husable hlt paths)
    rwa [List.append_assoc] at hnext

namespace Underway

variable {entry : Tentative κ}

/-- An entry that is out of date can be dropped. -/
theorem drop (h : Underway o relationships source nodeCount followed s (entry :: frontier))
    (hstale : s.mark entry.node ≠ 0 ∨ PathCost.less (s.costOf entry.node) entry.cost = true) :
    Underway o relationships source nodeCount followed s frontier := by
  refine { h with entry := ?_, reached := ?_, live := ?_, sorted := h.sorted.of_cons }
  · exact fun e he => h.entry e (List.mem_cons_of_mem _ he)
  · exact fun e he => h.reached e (List.mem_cons_of_mem _ he)
  · intro v hv hfinite
    obtain ⟨e, he, rfl, hrank⟩ := h.live v hv hfinite
    rcases List.mem_cons.mp he with rfl | he
    · rcases hstale with hmark | hless
      · exact absurd ((h.mark_iff _).mp hmark) hv
      · have hlt := (o.less_iff _ _ (h.sound _) (h.entry e List.mem_cons_self).2.1).mp hless
        exact absurd hrank hlt.ne'
    · exact ⟨e, he, rfl, hrank⟩

/-- The first entry of the frontier that is up to date can be settled. -/
theorem settle (h : Underway o relationships source nodeCount followed s (entry :: frontier))
    (hmark : s.mark entry.node = 0) (hless : ¬ PathCost.less (s.costOf entry.node) entry.cost = true) :
    o.rank (s.costOf entry.node) = o.rank entry.cost ∧
      (∀ u ∈ (s.settleNode entry.node).settled, o.rank (s.costOf u) ≤ o.rank entry.cost) ∧
      Underway o relationships source nodeCount followed (s.settleNode entry.node) frontier := by
  obtain ⟨hwalk, hsound, hfinite⟩ := h.entry entry List.mem_cons_self
  have hrank : o.rank (s.costOf entry.node) = o.rank entry.cost := by
    refine le_antisymm (h.reached entry List.mem_cons_self) (not_lt.mp fun hlt => hless ?_)
    exact (o.less_iff _ _ (h.sound _) hsound).mpr hlt
  have hnode := lt_of_rank h.sized (hrank ▸ hfinite)
  have hnew : entry.node ∉ s.settled := fun hin => (h.mark_iff _).mpr hin hmark
  have hsame : ∀ x, x ≠ entry.node → s.SameAt (s.settleNode entry.node) x := fun x hx =>
    ⟨rfl, rfl, (mark_settleNode h.sized hnode x).trans (if_neg hx), rfl⟩
  refine ⟨hrank, ?_, ?_⟩
  · exact List.forall_mem_cons.mpr ⟨hrank.le, fun u hu => hrank ▸ h.near u hu _ hnew⟩
  constructor
  case sized => exact sized_settleNode h.sized _
  case nodup => exact List.nodup_cons.mpr ⟨hnew, h.nodup⟩
  case mark_iff => exact mark_settleNode_iff h.sized hnode h.mark_iff
  case sound => exact h.sound
  case source_reached => exact h.source_reached
  case walk => exact h.walk
  case finite => exact List.forall_mem_cons.mpr ⟨hrank ▸ hfinite, h.finite⟩
  case near =>
    intro u hu v hv
    obtain ⟨hne, hv⟩ := not_or.mp (mt List.mem_cons.mpr hv)
    rcases List.mem_cons.mp hu with rfl | hu
    · -- whatever has been reached stands in the frontier, and behind this entry
      rcases eq_or_ne (o.rank (s.costOf v)) ⊤ with htop | hreached
      · change _ ≤ o.rank (s.costOf v)
        rw [htop]
        exact le_top
      · obtain ⟨e, he, rfl, hcost⟩ := h.live v hv hreached.lt_top
        change o.rank (s.costOf entry.node) ≤ o.rank (s.costOf e.node)
        rw [hrank, ← hcost]
        rcases List.mem_cons.mp he with rfl | he
        · exact le_refl _
        · exact (List.pairwise_cons.mp h.sorted).1 e he
    · exact h.near u hu v hv
  case followed_settled => exact fun u a ha => List.mem_cons_of_mem _ (h.followed_settled u a ha)
  case step => exact h.step
  case noted => exact h.noted
  case front =>
    intro v hv u hu
    obtain ⟨hu, hleads⟩ := h.front v (mt (List.mem_cons_of_mem _) hv) u hu
    exact ⟨List.mem_cons_of_mem _ hu, hleads⟩
  case earlier =>
    intro behind v rest hsettled u hu
    change entry.node :: s.settled = _ at hsettled
    cases behind with
    | nil =>
      obtain ⟨rfl, rfl⟩ := List.cons.inj hsettled
      exact (h.front _ hnew u hu).1
    | cons first behind => exact h.earlier behind v rest (List.cons.inj hsettled).2 u hu
  case untouched =>
    intro v htop hnil
    have hne : v ≠ entry.node := by
      rintro rfl
      change o.rank (s.costOf entry.node) = ⊤ at htop
      rw [hrank] at htop
      exact absurd htop hfinite.ne
    exact (h.untouched v htop hnil).of_sameAt (hsame v hne)
  case entry => exact fun e he => h.entry e (List.mem_cons_of_mem _ he)
  case reached => exact fun e he => h.reached e (List.mem_cons_of_mem _ he)
  case live =>
    intro v hv hreached
    obtain ⟨hne, hv⟩ := not_or.mp (mt List.mem_cons.mpr hv)
    obtain ⟨e, he, rfl, hcost⟩ := h.live v hv hreached
    rcases List.mem_cons.mp he with rfl | he
    · exact absurd rfl hne
    · exact ⟨e, he, rfl, hcost⟩
  case sorted => exact h.sorted.of_cons

/-- **One entry.**  It is dropped, or its node settled and expanded. -/
theorem settleNext (husable : ∀ u, ∀ a ∈ relationships u, o.usable a.2)
    (htargets : ∀ u, ∀ a ∈ relationships u, a.1 < nodeCount)
    (h : Underway o relationships source nodeCount (fun u a => u ∈ s.settled ∧ a ∈ relationships u) s
      (entry :: frontier)) :
    let state := Search.settleNext relationships entry s frontier
    Underway o relationships source nodeCount (fun u a => u ∈ state.1.settled ∧ a ∈ relationships u) state.1
      state.2 := by
  by_cases hstale : s.mark entry.node ≠ 0 ∨ PathCost.less (s.costOf entry.node) entry.cost = true
  · rw [settleNext_of_stale hstale]
    exact h.drop hstale
  · rw [not_or, not_not] at hstale
    obtain ⟨hmark, hless⟩ := hstale
    obtain ⟨hwalk, hsound, -⟩ := h.entry entry List.mem_cons_self
    obtain ⟨hrank, hfar, hunderway⟩ := h.settle hmark hless
    have hstart : Following o relationships source nodeCount s.settled entry.node entry.cost []
        (s.settleNode entry.node, frontier) := by
      refine ⟨?_, rfl, hrank, hfar⟩
      simpa only [List.not_mem_nil, and_false, or_false] using hunderway
    have hend := hstart.foldl hwalk hsound (relationships entry.node)
      (fun a ha => ⟨ha, husable _ a ha, htargets _ a ha⟩) (s.pathsTo entry.node)
    have hall := hend.underway
    rw [settleNext_of_live hmark hless]
    dsimp only
    rw [hend.settled_eq]
    convert hall using 3 with u a
    rw [List.nil_append, List.mem_cons]
    constructor
    · rintro ⟨rfl | hu, ha⟩
      · exact .inr ⟨rfl, ha⟩
      · exact .inl ⟨hu, ha⟩
    · rintro (⟨hu, ha⟩ | ⟨rfl, ha⟩)
      · exact ⟨.inr hu, ha⟩
      · exact ⟨.inl rfl, ha⟩

/-! ## The whole search -/

/-- When the frontier is empty, whatever has been reached is settled. -/
theorem mem_settled_of_finite (h : Underway o relationships source nodeCount followed s []) {v : Nat}
    (hfinite : o.rank (s.costOf v) < ⊤) : v ∈ s.settled := by
  by_contra hv
  obtain ⟨e, he, -⟩ := h.live v hv hfinite
  exact absurd he List.not_mem_nil

section

variable (husable : ∀ u, ∀ a ∈ relationships u, o.usable a.2)
  (h : Underway o relationships source nodeCount (fun u a => u ∈ s.settled ∧ a ∈ relationships u) s [])

include husable h

/-- No walk of finite cost is cheaper than what the search has found. -/
theorem le_of_walkCost {v : Nat} {c : κ} (hwalk : WalkCost relationships source v c) (hfinite : o.rank c < ⊤) :
    v ∈ s.settled ∧ o.rank (s.costOf v) ≤ o.rank c := by
  induction hwalk with
  | start => exact ⟨h.mem_settled_of_finite (h.source_reached.trans_lt o.rank_zero_lt), h.source_reached⟩
  | @step u v c w hwalk hmem ih =>
    have hw := husable u _ hmem
    have hsound := hwalk.sound husable
    obtain ⟨hu, hle⟩ := ih ((o.le_add _ _ hsound hw).trans_lt hfinite)
    have hcost : o.rank (s.costOf v) ≤ o.rank (PathCost.add c w) :=
      (h.step u (v, w) ⟨hu, hmem⟩).trans (o.add_le_add _ _ _ (h.sound u) hsound hle hw)
    exact ⟨h.mem_settled_of_finite (hcost.trans_lt hfinite), hcost⟩

/-- **The search settles the nodes to which some walk has a finite cost.** -/
theorem mem_settled_iff {v : Nat} :
    v ∈ s.settled ↔ ∃ c, WalkCost relationships source v c ∧ o.rank c < ⊤ := by
  constructor
  · exact fun hv => ⟨_, h.walk v (h.finite v hv), h.finite v hv⟩
  · rintro ⟨c, hwalk, hfinite⟩
    exact (h.le_of_walkCost husable hwalk hfinite).1

/-- **Something is noted about a node that is not settled exactly when the node can be reached.** -/
theorem untouched_iff : (∀ v, v ∉ s.settled → s.Untouched v) ↔
    ∀ v c, WalkCost relationships source v c → ∃ c', WalkCost relationships source v c' ∧ o.rank c' < ⊤ := by
  constructor
  · intro huntouched v c hwalk
    rw [← h.mem_settled_iff husable]
    induction hwalk with
    | start => exact h.mem_settled_of_finite (h.source_reached.trans_lt o.rank_zero_lt)
    | @step u v c w hwalk hmem hu =>
      by_contra hv
      have htop : o.rank (s.costOf v) = ⊤ := not_lt_top_iff.mp fun hlt => hv (h.mem_settled_of_finite hlt)
      exact h.noted u (v, w) ⟨hu, hmem⟩ htop (huntouched v hv).predecessorsOf
  · intro hreach v hv
    have htop : o.rank (s.costOf v) = ⊤ := not_lt_top_iff.mp fun hlt => hv (h.mem_settled_of_finite hlt)
    refine h.untouched v htop (List.eq_nil_iff_forall_not_mem.mpr fun u hu => ?_)
    obtain ⟨hu, w, hmem⟩ := h.front v hv u hu
    exact hv ((h.mem_settled_iff husable).mpr (hreach v _ ((h.walk u (h.finite u hu)).step hmem)))

end

end Underway

variable [Reckoning ρ]

/-- The first frontier is the source. -/
theorem underway_opened (o : CostRank κ P) (relationships : Nat → List (Nat × κ)) (hsource : source < nodeCount) :
    Underway o relationships source nodeCount
      (fun u a => u ∈ (opened nodeCount source : Search κ ρ).settled ∧ a ∈ relationships u)
      (opened nodeCount source : Search κ ρ) [⟨PathCost.zero, source⟩] := by
  have hcost := costOf_opened (κ := κ) (ρ := ρ) hsource
  have hzero : (opened nodeCount source : Search κ ρ).costOf source = PathCost.zero := by rw [hcost, if_pos rfl]
  have hsource_of : ∀ v, o.rank ((opened nodeCount source : Search κ ρ).costOf v) < ⊤ → v = source := by
    intro v hv
    by_contra hne
    rw [hcost, if_neg hne, o.rank_unreached] at hv
    exact absurd hv (lt_irrefl _)
  have hnone : ∀ v, v ∉ (opened nodeCount source : Search κ ρ).settled := fun v => List.not_mem_nil
  constructor
  case sized => exact sized_opened _ _
  case nodup => exact List.nodup_nil
  case mark_iff => exact mark_opened_iff _ _
  case sound =>
    intro v
    rw [hcost]
    split
    · exact o.sound_zero
    · exact o.sound_unreached
  case source_reached => rw [hzero]
  case walk =>
    intro v hv
    obtain rfl := hsource_of v hv
    rw [hzero]
    exact .start
  case finite => exact fun u hu => absurd hu (hnone u)
  case near => exact fun u hu => absurd hu (hnone u)
  case followed_settled => exact fun u a ha => ha.1
  case step => exact fun u a ha => absurd ha.1 (hnone u)
  case noted => exact fun u a ha => absurd ha.1 (hnone u)
  case front =>
    intro v _ u hu
    rw [predecessorsOf_opened] at hu
    exact absurd hu List.not_mem_nil
  case earlier =>
    intro behind v rest _ u hu
    rw [predecessorsOf_opened] at hu
    exact absurd hu List.not_mem_nil
  case untouched =>
    intro v htop _
    refine untouched_opened hsource ?_
    rintro rfl
    rw [hzero] at htop
    exact absurd htop o.rank_zero_lt.ne
  case entry =>
    intro e he
    obtain rfl := List.mem_singleton.mp he
    exact ⟨.start, o.sound_zero, o.rank_zero_lt⟩
  case reached =>
    intro e he
    obtain rfl := List.mem_singleton.mp he
    rw [hzero]
  case live =>
    intro v _ hv
    obtain rfl := hsource_of v hv
    exact ⟨_, List.mem_singleton.mpr rfl, rfl, by rw [hzero]⟩
  case sorted => exact List.pairwise_singleton _ _

section

variable {count : Nat} (husable : ∀ u, ∀ a ∈ relationships u, o.usable a.2)
  (htargets : ∀ u, ∀ a ∈ relationships u, a.1 < nodeCount) (hsource : source < nodeCount)
  (hcount : ∑ u ∈ Finset.range nodeCount, (relationships u).length ≤ count)

include husable htargets hsource hcount

/-- The search ends with an empty frontier. -/
theorem underway_cheapestFirst :
    let s := (new nodeCount true : Search κ ρ).cheapestFirst relationships count source
    Underway o relationships source nodeCount (fun u a => u ∈ s.settled ∧ a ∈ relationships u) s [] ∧
      s.Orderly nodeCount true := by
  obtain ⟨hend, hdependency⟩ := cheapestFirst_induction (ρ := ρ) (fun s frontier =>
      Underway o relationships source nodeCount (fun u a => u ∈ s.settled ∧ a ∈ relationships u) s frontier)
    (fun s frontier h => ⟨h.sized, h.mark_iff, fun e he =>
      lt_of_rank h.sized ((h.reached e he).trans_lt (h.entry e he).2.2)⟩) htargets
    (fun s entry frontier h => h.settleNext husable htargets) hcount (underway_opened o relationships hsource)
  exact ⟨hend, hend.sized, hend.nodup, hend.earlier, hdependency⟩

/-- **A search by cost leaves new buffers behind exactly when it can reach no node by infinite costs only.** -/
theorem accumulate_cheapestFirst_eq_new_iff (scores : Array ρ) :
    (((new nodeCount true : Search κ ρ).cheapestFirst relationships count source).accumulate source scores).1 =
        new nodeCount true ↔
      ∀ v c, WalkCost relationships source v c → ∃ c', WalkCost relationships source v c' ∧ o.rank c' < ⊤ := by
  obtain ⟨hunderway, horderly⟩ :=
    underway_cheapestFirst (ρ := ρ) husable htargets hsource hcount
  rw [horderly.accumulate_eq_new_iff, hunderway.untouched_iff husable]

end

end Search

end PackedGraph
