import PackedGraph.Proofs.Analysis.Buffers
import PackedGraph.Proofs.Analysis.ShortestPaths

/-!
# What a search knows

A search settles one node after the other and follows the relationships of each.  At any moment it knows
the shortest ways that use the relationships followed so far: `Explored` says what stands in the buffers
then.  Following one more relationship finds a better way to its target, or one as good as those known, or
a worse one, and there is a lemma for each.  When nothing is left to follow, what the search knows is what
there is to know: distances, all shortest paths, and the predecessors on them (`Explored.found`).

By hops or by cost makes no difference here.
-/

namespace PackedGraph

namespace Search

variable {κ ρ : Type} [PathCost κ]

/-! ## Distances so far -/

/-- The distances `d` of the nodes that have been `reached`, when some relationships of the settled nodes
have been followed: the last one that was settled is the first of the list. -/
structure Charted (source : Nat) (followed : Ways) (reached : Nat → Prop) (d : Nat → ℚ) (settled : List Nat) :
    Prop where
  /-- No node is settled twice. -/
  nodup : settled.Nodup
  /-- Only settled nodes have had their relationships followed. -/
  followed_eq_nil : ∀ u, u ∉ settled → followed u = []
  /-- Settled nodes have been reached. -/
  reached_of_mem : ∀ u ∈ settled, reached u
  /-- They are settled in the order of their distances. -/
  sorted : settled.Pairwise fun u v => d v ≤ d u
  /-- No node that is not settled yet is nearer. -/
  near : ∀ u ∈ settled, ∀ v, reached v → v ∉ settled → d u ≤ d v
  /-- The source has been reached. -/
  reached_source : reached source
  /-- It is where it is. -/
  source_eq : d source = 0
  /-- No distance is negative. -/
  nonneg : ∀ v, reached v → 0 ≤ d v
  /-- Relationships that have been followed are no shortcuts. -/
  step : ∀ u ∈ settled, ∀ a ∈ followed u, reached a.1 ∧ d a.1 ≤ d u + a.2
  /-- One of them is the end of a shortest way to a node. -/
  attained : ∀ v, reached v → v ≠ source → ∃ u ∈ settled, (v, d v - d u) ∈ followed u

/-- One more relationship of a node has been followed. -/
def Follows (followed followed' : Ways) (u : Nat) (a : Nat × ℚ) : Prop :=
  ∀ x, followed' x = if x = u then followed u ++ [a] else followed x

/-- A node is farther away than was known, or has just been reached. -/
structure Moves (reached reached' : Nat → Prop) (d d' : Nat → ℚ) (v : Nat) (distance : ℚ) : Prop where
  /-- It has been reached, and no others. -/
  reached_iff : ∀ x, reached' x ↔ x = v ∨ reached x
  /-- Its distance is known, and others stay. -/
  distance_eq : ∀ x, d' x = if x = v then distance else d x

variable {source : Nat} {followed followed' : Ways} {reached reached' : Nat → Prop} {d d' : Nat → ℚ}
  {settled before : List Nat} {u v : Nat} {w : ℚ}

namespace Follows

theorem mem_iff (h : Follows followed followed' u (v, w)) {x : Nat} {a : Nat × ℚ} :
    a ∈ followed' x ↔ a ∈ followed x ∨ x = u ∧ a = (v, w) := by
  rw [h]
  by_cases hx : x = u
  · rw [if_pos hx, List.mem_append, List.mem_singleton, hx]
    simp
  · rw [if_neg hx]
    simp [hx]

/-- What is known of a node to which the relationship does not lead stays. -/
theorem count_eq (h : Follows followed followed' u (v, w)) {x : Nat} (hx : x ≠ v) (y : Nat) (c : ℚ) :
    (followed' y).count (x, c) = (followed y).count (x, c) := by
  rw [h]
  by_cases hy : y = u
  · have hne : (v, w) ≠ (x, c) := fun heq => hx (Prod.mk.inj heq).1.symm
    rw [if_pos hy, List.count_append, List.count_singleton, hy, if_neg (by simpa using hne), Nat.add_zero]
  · rw [if_neg hy]

end Follows

namespace Charted

theorem mem_settled_of_mem_followed (h : Charted source followed reached d settled) {a : Nat × ℚ}
    (ha : a ∈ followed u) : u ∈ settled := by
  by_contra hu
  rw [h.followed_eq_nil u hu] at ha
  exact absurd ha List.not_mem_nil

theorem followed_eq_nil_of_follows (h : Charted source followed reached d settled) (hu : u ∈ settled)
    (hfollows : Follows followed followed' u (v, w)) {x : Nat} (hx : x ∉ settled) : followed' x = [] := by
  rw [hfollows, if_neg fun heq : x = u => hx (heq ▸ hu), h.followed_eq_nil x hx]

/-- The node that was settled last is the farthest of all that are settled. -/
theorem le_last (h : Charted source followed reached d (u :: before)) {x : Nat} (hx : x ∈ u :: before) :
    d x ≤ d u := by
  rcases List.mem_cons.mp hx with rfl | hx
  · exact le_refl _
  · exact (List.pairwise_cons.mp h.sorted).1 x hx

/-- A relationship that is no shortcut changes no distances. -/
theorem follow (h : Charted source followed reached d settled) (hu : u ∈ settled)
    (hfollows : Follows followed followed' u (v, w)) (hreached : reached v) (hle : d v ≤ d u + w) :
    Charted source followed' reached d settled := by
  refine ⟨h.nodup, fun x hx => h.followed_eq_nil_of_follows hu hfollows hx, h.reached_of_mem, h.sorted, h.near,
    h.reached_source, h.source_eq, h.nonneg, fun x hx a ha => ?_, fun x hx hxs => ?_⟩
  · rcases hfollows.mem_iff.mp ha with ha | ⟨rfl, rfl⟩
    · exact h.step x hx a ha
    · exact ⟨hreached, hle⟩
  · obtain ⟨y, hy, ha⟩ := h.attained x hx hxs
    exact ⟨y, hy, hfollows.mem_iff.mpr (.inl ha)⟩

/-- A node to which there has been no way so far, or only longer ones, is not the source. -/
theorem ne_source (h : Charted source followed reached d settled) (hu : u ∈ settled) (hw : 0 < w)
    (hbetter : reached v → d u + w < d v) : source ≠ v := by
  rintro rfl
  have hlt := hbetter h.reached_source
  have hdu := h.nonneg u (h.reached_of_mem u hu)
  rw [h.source_eq] at hlt
  linarith

/-- The relationships followed before are all longer ways to it. -/
theorem longer (h : Charted source followed reached d settled) (hbetter : reached v → d u + w < d v) {x : Nat}
    {c : ℚ} (hc : (v, c) ∈ followed x) : d u + w < d x + c := by
  obtain ⟨hreach, hle⟩ := h.step x (h.mem_settled_of_mem_followed hc) _ hc
  exact (hbetter hreach).trans_le hle

/-- A better way to a node shortens its distance. -/
theorem improve (h : Charted source followed reached d (u :: before)) (hw : 0 < w) (hv : v ∉ u :: before)
    (hbetter : reached v → d u + w < d v) (hfollows : Follows followed followed' u (v, w))
    (hmoves : Moves reached reached' d d' v (d u + w)) : Charted source followed' reached' d' (u :: before) := by
  have hu : u ∈ u :: before := List.mem_cons_self
  have hne : ∀ x ∈ u :: before, x ≠ v := fun x hx heq => hv (heq ▸ hx)
  have hstays : ∀ x, x ≠ v → d' x = d x := fun x hx => by rw [hmoves.distance_eq, if_neg hx]
  have hnew : d' v = d u + w := by rw [hmoves.distance_eq, if_pos rfl]
  constructor
  case nodup => exact h.nodup
  case followed_eq_nil => exact fun x hx => h.followed_eq_nil_of_follows hu hfollows hx
  case reached_of_mem => exact fun x hx => (hmoves.reached_iff x).mpr (.inr (h.reached_of_mem x hx))
  case sorted =>
    refine h.sorted.imp_of_mem fun {x y} hx hy hle => ?_
    rwa [hstays x (hne x hx), hstays y (hne y hy)]
  case near =>
    intro x hx y hy hyn
    rw [hstays x (hne x hx)]
    by_cases heq : y = v
    · rw [heq, hnew]
      linarith [h.le_last hx]
    · rw [hstays y heq]
      exact h.near x hx y (((hmoves.reached_iff y).mp hy).resolve_left heq) hyn
  case reached_source => exact (hmoves.reached_iff source).mpr (.inr h.reached_source)
  case source_eq => rw [hstays source (h.ne_source hu hw hbetter), h.source_eq]
  case nonneg =>
    intro x hx
    by_cases heq : x = v
    · have hdu := h.nonneg u (h.reached_of_mem u hu)
      rw [heq, hnew]
      linarith
    · rw [hstays x heq]
      exact h.nonneg x (((hmoves.reached_iff x).mp hx).resolve_left heq)
  case step =>
    intro x hx a ha
    rw [hstays x (hne x hx)]
    rcases hfollows.mem_iff.mp ha with ha | ⟨rfl, rfl⟩
    · obtain ⟨hreach, hle⟩ := h.step x hx a ha
      refine ⟨(hmoves.reached_iff _).mpr (.inr hreach), ?_⟩
      by_cases heq : a.1 = v
      · rw [heq, hnew]
        exact (h.longer hbetter (heq ▸ ha : (v, a.2) ∈ followed x)).le
      · rwa [hstays _ heq]
    · exact ⟨(hmoves.reached_iff _).mpr (.inl rfl), hnew.le⟩
  case attained =>
    intro x hx hxs
    by_cases heq : x = v
    · refine ⟨u, hu, hfollows.mem_iff.mpr (.inr ⟨rfl, ?_⟩)⟩
      rw [heq, hnew, hstays u (hne u hu), add_sub_cancel_left]
    · obtain ⟨y, hy, ha⟩ := h.attained x (((hmoves.reached_iff x).mp hx).resolve_left heq) hxs
      refine ⟨y, hy, hfollows.mem_iff.mpr (.inl ?_)⟩
      rwa [hstays x heq, hstays y (hne y hy)]

/-- The nearest of the nodes that are not settled yet can be settled. -/
theorem settle (h : Charted source followed reached d settled) (hv : reached v) (hnew : v ∉ settled)
    (hnearest : ∀ x, reached x → x ∉ settled → d v ≤ d x) : Charted source followed reached d (v :: settled) := by
  constructor
  case nodup => exact List.nodup_cons.mpr ⟨hnew, h.nodup⟩
  case followed_eq_nil =>
    intro x hx
    rw [List.mem_cons, not_or] at hx
    exact h.followed_eq_nil x hx.2
  case reached_of_mem => exact List.forall_mem_cons.mpr ⟨hv, h.reached_of_mem⟩
  case sorted => exact List.pairwise_cons.mpr ⟨fun x hx => h.near x hx v hv hnew, h.sorted⟩
  case near =>
    intro x hx y hy hyn
    rw [List.mem_cons, not_or] at hyn
    rcases List.mem_cons.mp hx with rfl | hx
    · exact hnearest y hy hyn.2
    · exact h.near x hx y hy hyn.2
  case reached_source => exact h.reached_source
  case source_eq => exact h.source_eq
  case nonneg => exact h.nonneg
  case step => exact fun x _ a ha => h.step x (h.mem_settled_of_mem_followed ha) a ha
  case attained =>
    intro x hx hxs
    obtain ⟨y, hy, ha⟩ := h.attained x hx hxs
    exact ⟨y, List.mem_cons_of_mem _ hy, ha⟩

end Charted

/-! ## Knowing the relationships followed -/

/-- What stands in the buffers when some relationships have been followed. -/
structure Explored (source : Nat) (followed : Ways) (reached : Nat → Prop) (d : Nat → ℚ) (s : Search κ ρ) :
    Prop extends Charted source followed reached d s.settled where
  /-- The ends of shortest ways are noted, and nothing else. -/
  count_predecessors : ∀ v, reached v → ∀ u, (s.predecessorsOf v).count u = tightCount followed d u v
  /-- The paths to a node are those to the nodes in front of it. -/
  pathsTo : ∀ v, reached v → s.pathsTo v =
    min ((if v = source then 1 else 0) + ((s.predecessorsOf v).map s.pathsTo).sum) pathLimit
  /-- Nothing is noted about other nodes. -/
  untouched : ∀ v, ¬ reached v → s.Untouched v

namespace Explored

variable {s s' : Search κ ρ}

/-- Only settled nodes are noted in front of a node. -/
theorem mem_settled_of_mem (h : Explored source followed reached d s) (hv : reached v)
    (hu : u ∈ s.predecessorsOf v) : u ∈ s.settled := by
  have hcount := List.count_pos_iff.mpr hu
  rw [h.count_predecessors v hv] at hcount
  exact h.mem_settled_of_mem_followed (List.count_pos_iff.mp hcount)

theorem pathsTo_le (h : Explored source followed reached d s) (hv : reached v) : s.pathsTo v ≤ pathLimit := by
  rw [h.pathsTo v hv]
  exact Nat.min_le_right _ _

/-- Where the nodes in front of a node stay and so do their paths, its paths stay. -/
theorem pathsTo_of_sameAt (h : Explored source followed reached d s) {x : Nat} (hx : reached x)
    (hsame : s.SameAt s' x) (hothers : ∀ y ∈ s.predecessorsOf x, s'.pathsTo y = s.pathsTo y) :
    s'.pathsTo x =
      min ((if x = source then 1 else 0) + ((s'.predecessorsOf x).map s'.pathsTo).sum) pathLimit := by
  rw [hsame.pathsTo, hsame.predecessorsOf, h.pathsTo x hx]
  congr 3
  exact List.map_congr_left fun y hy => (hothers y hy).symm

/-- **A better way.**  The relationship leads to a node that has not been reached so far, or only by longer
ways: it replaces them. -/
theorem improve (h : Explored source followed reached d s) (hsettled : s.settled = u :: before)
    (hw : 0 < w) (hv : v ∉ s.settled) (hbetter : reached v → d u + w < d v)
    (hfollows : Follows followed followed' u (v, w)) (hmoves : Moves reached reached' d d' v (d u + w))
    (hsettled' : s'.settled = s.settled) (hsame : ∀ x, x ≠ v → s.SameAt s' x)
    (hpaths : s'.pathsTo v = s.pathsTo u) (hpredecessors : s'.predecessorsOf v = [u]) :
    Explored source followed' reached' d' s' := by
  have hu : u ∈ s.settled := hsettled ▸ List.mem_cons_self
  have hne : ∀ x ∈ s.settled, x ≠ v := fun x hx heq => hv (heq ▸ hx)
  have hstays : ∀ x, x ≠ v → d' x = d x := fun x hx => by rw [hmoves.distance_eq, if_neg hx]
  have hnew : d' v = d u + w := by rw [hmoves.distance_eq, if_pos rfl]
  constructor
  case toCharted =>
    have hcharted := h.toCharted
    rw [hsettled] at hcharted hv
    rw [hsettled', hsettled]
    exact hcharted.improve hw hv hbetter hfollows hmoves
  case count_predecessors =>
    intro x hx y
    by_cases heq : x = v
    · subst heq
      rw [hpredecessors, List.count_singleton, tightCount, hnew, hfollows]
      by_cases hy : y = u
      · subst hy
        have hnone : (followed y).count (x, w) = 0 :=
          List.count_eq_zero.mpr fun hmem => lt_irrefl _ (h.longer hbetter hmem)
        rw [if_pos rfl, hstays y (hne y hu), add_sub_cancel_left, List.count_append, hnone]
        simp
      · have hnone : (followed y).count (x, d u + w - d' y) = 0 := by
          refine List.count_eq_zero.mpr fun hmem => ?_
          have hlonger := h.longer hbetter hmem
          rw [hstays y (hne y (h.mem_settled_of_mem_followed hmem))] at hlonger
          linarith
        rw [if_neg hy, hnone, if_neg (by simpa using Ne.symm hy)]
    · have hrx := ((hmoves.reached_iff x).mp hx).resolve_left heq
      rw [(hsame x heq).predecessorsOf, h.count_predecessors x hrx, tightCount, tightCount,
        hfollows.count_eq heq, hstays x heq]
      by_cases hy : y = v
      · rw [hy, h.followed_eq_nil v hv]
        rfl
      · rw [hstays y hy]
  case pathsTo =>
    intro x hx
    by_cases heq : x = v
    · have hsource := (h.ne_source hu hw hbetter).symm
      rw [heq, hpaths, hpredecessors, if_neg hsource, List.map_singleton, List.sum_singleton,
        (hsame u (hne u hu)).pathsTo, Nat.zero_add, Nat.min_eq_left (h.pathsTo_le (h.reached_of_mem u hu))]
    · have hrx := ((hmoves.reached_iff x).mp hx).resolve_left heq
      exact h.pathsTo_of_sameAt hrx (hsame x heq) fun y hy =>
        (hsame y (hne y (h.mem_settled_of_mem hrx hy))).pathsTo
  case untouched =>
    intro x hx
    have hnot : ¬ (x = v ∨ reached x) := fun hor => hx ((hmoves.reached_iff x).mpr hor)
    exact (h.untouched x fun hr => hnot (.inr hr)).of_sameAt (hsame x fun heq => hnot (.inl heq))

/-- **One more way.**  The relationship leads to a node as far as it is known to be: its paths join the
others. -/
theorem join (h : Explored source followed reached d s) (hu : u ∈ s.settled)
    (hv : v ∉ s.settled) (hreached : reached v) (heq : d u + w = d v)
    (hfollows : Follows followed followed' u (v, w))
    (hsettled' : s'.settled = s.settled) (hsame : ∀ x, x ≠ v → s.SameAt s' x)
    (hpaths : s'.pathsTo v = addPaths (s.pathsTo v) (s.pathsTo u))
    (hpredecessors : s'.predecessorsOf v = u :: s.predecessorsOf v) :
    Explored source followed' reached d s' := by
  have hstays : ∀ y ∈ s.settled, s'.pathsTo y = s.pathsTo y :=
    fun y hy => (hsame y fun heq => hv (heq ▸ hy)).pathsTo
  constructor
  case toCharted =>
    rw [hsettled']
    exact h.toCharted.follow hu hfollows hreached heq.ge
  case count_predecessors =>
    intro x hx y
    by_cases hxv : x = v
    · subst hxv
      rw [hpredecessors, List.count_cons, h.count_predecessors x hx, tightCount, tightCount, hfollows]
      by_cases hy : y = u
      · have hlength : d x - d y = w := by rw [hy, ← heq, add_sub_cancel_left]
        rw [if_pos hy, List.count_append, hlength, hy]
        simp
      · rw [if_neg hy, if_neg (by simpa using Ne.symm hy), Nat.add_zero]
    · rw [(hsame x hxv).predecessorsOf, h.count_predecessors x hx, tightCount, tightCount, hfollows.count_eq hxv]
  case pathsTo =>
    intro x hx
    by_cases hxv : x = v
    · have hothers : (s.predecessorsOf v).map s'.pathsTo = (s.predecessorsOf v).map s.pathsTo :=
        List.map_congr_left fun y hy => hstays y (h.mem_settled_of_mem hreached hy)
      rw [hxv, hpaths, addPaths, h.pathsTo v hreached, hpredecessors, List.map_cons, List.sum_cons, hothers,
        hstays u hu]
      omega
    · exact h.pathsTo_of_sameAt hx (hsame x hxv) fun y hy => hstays y (h.mem_settled_of_mem hx hy)
  case untouched => exact fun x hx => (h.untouched x hx).of_sameAt (hsame x fun heq => hx (heq ▸ hreached))

/-- **A detour.**  The relationship leads to a node that is nearer: nothing changes. -/
theorem pass (h : Explored source followed reached d s) (hu : u ∈ s.settled) (hreached : reached v)
    (hlt : d v < d u + w) (hfollows : Follows followed followed' u (v, w)) :
    Explored source followed' reached d s := by
  refine ⟨h.toCharted.follow hu hfollows hreached hlt.le, fun x hx y => ?_, h.pathsTo, h.untouched⟩
  rw [h.count_predecessors x hx, tightCount, tightCount]
  by_cases hxv : x = v
  · rw [hfollows, hxv]
    by_cases hy : y = u
    · have hne : (v, w) ≠ (v, d v - d y) := by
        intro hpair
        have := (Prod.mk.inj hpair).2
        rw [hy] at this
        linarith
      rw [if_pos hy, List.count_append, List.count_singleton, if_neg (by simpa using hne), hy, Nat.add_zero]
    · rw [if_neg hy]
  · rw [hfollows.count_eq hxv]

/-- The nearest of the nodes that are not settled yet can be settled. -/
theorem settle (h : Explored source followed reached d s) (hv : reached v) (hnew : v ∉ s.settled)
    (hnearest : ∀ x, reached x → x ∉ s.settled → d v ≤ d x) (hsettled' : s'.settled = v :: s.settled)
    (hsame : ∀ x, x ≠ v → s.SameAt s' x) (hpaths : s'.pathsTo v = s.pathsTo v)
    (hpredecessors : s'.predecessorsOf v = s.predecessorsOf v) :
    Explored source followed reached d s' := by
  have hall : ∀ x, s'.pathsTo x = s.pathsTo x ∧ s'.predecessorsOf x = s.predecessorsOf x := by
    intro x
    by_cases heq : x = v
    · rw [heq]
      exact ⟨hpaths, hpredecessors⟩
    · exact ⟨(hsame x heq).pathsTo, (hsame x heq).predecessorsOf⟩
  constructor
  case toCharted =>
    rw [hsettled']
    exact h.toCharted.settle hv hnew hnearest
  case count_predecessors =>
    intro x hx y
    rw [(hall x).2]
    exact h.count_predecessors x hx y
  case pathsTo =>
    intro x hx
    rw [(hall x).1, (hall x).2, h.pathsTo x hx]
    congr 3
    exact List.map_congr_left fun y _ => (hall y).1.symm
  case untouched => exact fun x hx => (h.untouched x hx).of_sameAt (hsame x fun heq => hx (heq ▸ hv))

end Explored

/-! ## Progress -/

/-- At first only the source is known. -/
theorem Explored.start {s : Search κ ρ}
    (hsettled : s.settled = []) (hreached : ∀ v, reached v ↔ v = source) (hsource : d source = 0)
    (hpaths : s.pathsTo source = 1) (hpredecessors : s.predecessorsOf source = [])
    (hothers : ∀ v, v ≠ source → s.Untouched v) : Explored source (fun _ => []) reached d s := by
  have hnone : ∀ u, u ∉ s.settled := fun u hu => List.not_mem_nil (hsettled ▸ hu)
  have hzero : ∀ v, reached v → 0 ≤ d v := by
    intro v hv
    rw [(hreached v).mp hv, hsource]
  constructor
  case toCharted =>
    exact ⟨hsettled ▸ List.nodup_nil, fun _ _ => rfl, fun u hu => absurd hu (hnone u),
      hsettled ▸ List.Pairwise.nil, fun u hu => absurd hu (hnone u), (hreached source).mpr rfl, hsource, hzero,
      fun u hu => absurd hu (hnone u), fun v hv hne => absurd ((hreached v).mp hv) hne⟩
  case count_predecessors =>
    intro v hv u
    rw [(hreached v).mp hv, hpredecessors, tightCount, List.count_nil, List.count_nil]
  case pathsTo =>
    intro v hv
    rw [(hreached v).mp hv, hpaths, hpredecessors, if_pos rfl]
    rfl
  case untouched => exact fun v hv => hothers v fun heq => hv ((hreached v).mpr heq)

/-- All relationships of some nodes, and no others. -/
def followedOf (ways : Ways) (settled : List Nat) : Ways :=
  fun x => if x ∈ settled then ways x else []

/-- Besides those of the nodes before it, some relationships of a node. -/
def followedUpTo (ways : Ways) (before : List Nat) (u : Nat) (done : List (Nat × ℚ)) : Ways :=
  fun x => if x = u then done else followedOf ways before x

theorem followedOf_nil (ways : Ways) : followedOf ways [] = fun _ => [] := by
  funext x
  exact if_neg List.not_mem_nil

theorem followedUpTo_nil (ways : Ways) {before : List Nat} {u : Nat} (hu : u ∉ before) :
    followedUpTo ways before u [] = followedOf ways before := by
  funext x
  rw [followedUpTo]
  split
  · rename_i heq
    rw [heq, followedOf, if_neg hu]
  · rfl

theorem followedUpTo_self (ways : Ways) (before : List Nat) (u : Nat) :
    followedUpTo ways before u (ways u) = followedOf ways (u :: before) := by
  funext x
  rw [followedUpTo, followedOf, followedOf]
  by_cases heq : x = u
  · rw [if_pos heq, if_pos (List.mem_cons.mpr (.inl heq)), heq]
  · simp only [heq, if_false, List.mem_cons, false_or]

theorem follows_followedUpTo (ways : Ways) (before : List Nat) (u : Nat) (done : List (Nat × ℚ)) (a : Nat × ℚ) :
    Follows (followedUpTo ways before u done) (followedUpTo ways before u (done ++ [a])) u a := by
  intro x
  rw [followedUpTo]
  by_cases heq : x = u
  · rw [if_pos heq, if_pos heq, followedUpTo, if_pos rfl]
  · rw [if_neg heq, if_neg heq, followedUpTo, if_neg heq]

/-! ## Knowing everything -/

/-- What stands in the buffers when a search is over. -/
structure Found (ways : Ways) (source : Nat) (d : Nat → ℚ) (s : Search κ ρ) : Prop where
  /-- The settled nodes are those that can be reached, and their distances are right. -/
  distances : Distances ways source s.settled.toFinset d
  /-- No node is settled twice. -/
  nodup : s.settled.Nodup
  /-- The farthest node comes first. -/
  sorted : s.settled.Pairwise fun u v => d v ≤ d u
  /-- The nodes in front of a node are noted once per relationship at the end of a shortest path. -/
  count_predecessors : ∀ v ∈ s.settled, ∀ u,
    (s.predecessorsOf v).count u = if u ∈ s.settled then tightCount ways d u v else 0
  /-- Shortest paths are counted up to the limit. -/
  pathsTo : ∀ v ∈ s.settled, s.pathsTo v = min (tight ways d source v).ncard pathLimit
  /-- Nothing is noted about other nodes. -/
  untouched : ∀ v, v ∉ s.settled → s.Untouched v

/-- What a search by hops or by cost leaves in the buffers: everything there is to find, and nothing
else. -/
structure Complete [Reckoning ρ] (nodeCount : Nat) (withCosts : Bool) (ways : Ways) (source : Nat) (d : Nat → ℚ)
    (s : Search κ ρ) : Prop where
  /-- It has found everything. -/
  found : s.Found ways source d
  /-- The buffers have their sizes. -/
  sized : s.Sized nodeCount withCosts
  /-- No dependencies have been added up. -/
  dependencyOf : ∀ v, s.dependencyOf v = Reckoning.ofCount 0
  /-- Settled nodes are nodes. -/
  settled_lt : ∀ v ∈ s.settled, v < nodeCount

/-- Sums of counts that stop at a limit stop where the sum does. -/
theorem min_add_sum_min (nodes : Finset Nat) (a : Nat) (factor f g : Nat → Nat) (limit : Nat)
    (h : ∀ x ∈ nodes, factor x = 0 ∨ f x = min (g x) limit) :
    min (a + ∑ x ∈ nodes, factor x * f x) limit = min (a + ∑ x ∈ nodes, factor x * g x) limit := by
  induction nodes using Finset.induction_on generalizing a with
  | empty => rfl
  | insert x nodes hx ih =>
    have hrest := fun a => ih a fun y hy => h y (Finset.mem_insert_of_mem hy)
    rw [Finset.sum_insert hx, Finset.sum_insert hx, ← Nat.add_assoc, ← Nat.add_assoc, hrest]
    rcases h x (Finset.mem_insert_self _ _) with hzero | heq
    · rw [hzero, Nat.zero_mul, Nat.zero_mul]
    · rcases Nat.le_total (g x) limit with hle | hge
      · rw [heq, Nat.min_eq_left hle]
      · -- above the limit one summand is as good as any other
        rcases Nat.eq_zero_or_pos (factor x) with hzero | hpos
        · rw [hzero, Nat.zero_mul, Nat.zero_mul]
        · have hleft : limit ≤ factor x * f x := by
            rw [heq, Nat.min_eq_right hge]
            exact Nat.le_mul_of_pos_left _ hpos
          have hright : limit ≤ factor x * g x := hge.trans (Nat.le_mul_of_pos_left _ hpos)
          omega

/-- A list is added up by how often each of its members occurs. -/
theorem sum_map_eq_sum_count {xs : List Nat} {nodes : Finset Nat} (h : ∀ x ∈ xs, x ∈ nodes) (f : Nat → Nat) :
    (xs.map f).sum = ∑ x ∈ nodes, xs.count x * f x := by
  induction xs with
  | nil => simp
  | cons y xs ih =>
    have hcounts : ∀ x, (y :: xs).count x * f x = (if x = y then f x else 0) + xs.count x * f x := by
      intro x
      rw [List.count_cons, Nat.add_mul, Nat.add_comm]
      by_cases heq : x = y
      · simp [heq]
      · simp [heq, Ne.symm heq]
    rw [List.map_cons, List.sum_cons, ih fun x hx => h x (List.mem_cons_of_mem _ hx)]
    simp only [hcounts, Finset.sum_add_distrib, Finset.sum_ite_eq', if_pos (h y List.mem_cons_self)]

/-- **Nothing is left to follow.**  Then all distances are known, and all shortest paths counted. -/
theorem Explored.found {ways : Ways} {s : Search κ ρ} (h : Explored source followed reached d s)
    (hpositive : ways.Positive) (hsettled : ∀ v, reached v → v ∈ s.settled)
    (hall : ∀ u ∈ s.settled, followed u = ways u) : s.Found ways source d := by
  have hiff : ∀ v, v ∈ s.settled ↔ reached v := fun v => ⟨h.reached_of_mem v, hsettled v⟩
  have hdistances : Distances ways source s.settled.toFinset d := by
    constructor
    case positive => exact hpositive
    case source_mem => exact List.mem_toFinset.mpr (hsettled _ h.reached_source)
    case source_eq => exact h.source_eq
    case step =>
      intro u hu a ha
      have hu := List.mem_toFinset.mp hu
      obtain ⟨hreach, hle⟩ := h.step u hu a (hall u hu ▸ ha)
      exact ⟨List.mem_toFinset.mpr (hsettled _ hreach), hle⟩
    case attained =>
      intro v hv hne
      obtain ⟨u, hu, ha⟩ := h.attained v ((hiff v).mp (List.mem_toFinset.mp hv)) hne
      exact ⟨u, List.mem_toFinset.mpr hu, hall u hu ▸ ha⟩
  have hcount : ∀ v ∈ s.settled, ∀ u,
      (s.predecessorsOf v).count u = if u ∈ s.settled then tightCount ways d u v else 0 := by
    intro v hv u
    rw [h.count_predecessors v ((hiff v).mp hv), tightCount]
    by_cases hu : u ∈ s.settled
    · rw [if_pos hu, hall u hu, tightCount]
    · rw [if_neg hu, h.followed_eq_nil u hu]
      rfl
  refine ⟨hdistances, h.nodup, h.sorted, hcount, ?_, fun v hv => h.untouched v fun hr => hv (hsettled v hr)⟩
  -- the nodes in front of a node are nearer, and counted already
  have hpaths : ∀ v ∈ s.settled.toFinset, s.pathsTo v = min (tight ways d source v).ncard pathLimit := by
    refine Distances.induction_near s.settled.toFinset d fun v hv hnear => ?_
    have hmem := List.mem_toFinset.mp hv
    have hreach := (hiff v).mp hmem
    have hsum : ((s.predecessorsOf v).map s.pathsTo).sum =
        ∑ x ∈ s.settled.toFinset, tightCount ways d x v * s.pathsTo x := by
      rw [sum_map_eq_sum_count fun x hx => List.mem_toFinset.mpr (h.mem_settled_of_mem hreach hx)]
      refine Finset.sum_congr rfl fun x hx => ?_
      rw [hcount v hmem, if_pos (List.mem_toFinset.mp hx)]
    rw [h.pathsTo v hreach, hsum, hdistances.count_eq_last hv source hdistances.source_mem]
    simp only [Nat.mul_comm _ (tightCount ways d _ v), eq_comm (a := v)]
    refine min_add_sum_min _ _ _ _ _ _ fun x hx => ?_
    by_cases hzero : tightCount ways d x v = 0
    · exact .inl hzero
    · exact .inr (hnear x hx (hdistances.lt_of_tightCount_ne_zero hzero))
  exact fun v hv => hpaths v (List.mem_toFinset.mpr hv)

end Search

end PackedGraph
