import PackedGraph.Proofs.Analysis.Exploration

/-!
# Searching by hops

Breadth-first search settles the nodes of one level after those of the level before.  While it is at level
`k`, what is left of the level has the mark `k` and the nodes found for the next one have the mark `k + 1`,
so a node that has been visited is never reached by fewer hops later (`Levels`).  Following a relationship
keeps this, expanding a node does, and so does expanding a level; a level that is not empty settles nodes,
so the levels end in time.

Main statement: `Search.complete_breadthFirst`.
-/

namespace PackedGraph

/-- Every relationship is one hop. -/
def hopWays (targets : Nat → List Nat) : Ways := fun u => (targets u).map (·, 1)

theorem positive_hopWays (targets : Nat → List Nat) : (hopWays targets).Positive := by
  intro u a ha
  obtain ⟨target, -, rfl⟩ := List.mem_map.mp ha
  exact one_pos

namespace Search

variable {κ ρ : Type} [PathCost κ] {s s' : Search κ ρ} {source nodeCount level node target : Nat}
  {withCosts : Bool} {rest later before : List Nat} {followed : Ways} {targets : Nat → List Nat}

/-- The search is at a level: the nodes that are left of it, and those found for the next one. -/
structure Levels (source nodeCount : Nat) (withCosts : Bool) (level : Nat) (followed : Ways) (s : Search κ ρ)
    (rest later : List Nat) : Prop where
  /-- The buffers have their sizes. -/
  sized : s.Sized nodeCount withCosts
  /-- The marks tell the distances. -/
  explored : Explored source followed (s.mark · ≠ 0) (fun v => s.mark v - 1) s
  /-- Every visited node is in one place: settled, left, or found for the next level. -/
  nodup : (s.settled ++ (rest ++ later)).Nodup
  /-- All visited nodes are there. -/
  mem_iff : ∀ v, v ∈ s.settled ++ (rest ++ later) ↔ s.mark v ≠ 0
  /-- All settled nodes are on this level or an earlier one. -/
  mark_settled : ∀ v ∈ s.settled, s.mark v ≤ level
  /-- Those that are left are on this level, -/
  mark_rest : ∀ v ∈ rest, s.mark v = level
  /-- and those that have been found are on the next. -/
  mark_later : ∀ v ∈ later, s.mark v = level + 1

omit [PathCost κ] in
theorem mark_lt (h : s.Sized nodeCount withCosts) (hmark : s.mark node ≠ 0) : node < nodeCount := by
  by_contra hge
  exact hmark (getD_of_le (h.distance.symm ▸ Nat.le_of_not_lt hge) 0)

theorem Levels.mark_le (h : Levels source nodeCount withCosts level followed s rest later) (v : Nat) :
    s.mark v ≤ level + 1 := by
  by_cases hzero : s.mark v = 0
  · omega
  · rcases List.mem_append.mp ((h.mem_iff v).mpr hzero) with hv | hv
    · exact (h.mark_settled v hv).trans (Nat.le_succ _)
    · rcases List.mem_append.mp hv with hv | hv
      · exact (h.mark_rest v hv).le.trans (Nat.le_succ _)
      · exact (h.mark_later v hv).le

/-! ## One relationship -/

/-- Mark a node. -/
def setMark (s : Search κ ρ) (node mark : Nat) : Search κ ρ :=
  { s with distance := s.distance.setIfInBounds node mark }

omit [PathCost κ] in
theorem mark_setMark (h : s.Sized nodeCount withCosts) (hnode : node < nodeCount) (mark x : Nat) :
    (s.setMark node mark).mark x = if x = node then mark else s.mark x :=
  getD_setIfInBounds (h.distance.symm ▸ hnode) mark x 0

omit [PathCost κ] in
theorem Sized.setMark (h : s.Sized nodeCount withCosts) (node mark : Nat) :
    (s.setMark node mark).Sized nodeCount withCosts :=
  ⟨h.paths, h.dependency, (Array.size_setIfInBounds ..).trans h.distance, h.cost, h.predecessors⟩

theorem sameAt_setMark (h : s.Sized nodeCount withCosts) (hnode : node < nodeCount) (mark : Nat) {x : Nat}
    (hx : x ≠ node) : s.SameAt (s.setMark node mark) x :=
  ⟨rfl, rfl, by rw [mark_setMark h hnode, if_neg hx], rfl⟩

/-- Visit a node for the first time, from another one. -/
def discovered (s : Search κ ρ) (target next node paths : Nat) : Search κ ρ :=
  (s.setMark target next).addPredecessor target node paths

omit [PathCost κ] in
theorem mark_discovered (h : s.Sized nodeCount withCosts) (htarget : target < nodeCount)
    (next node paths x : Nat) :
    (s.discovered target next node paths).mark x = if x = target then next else s.mark x :=
  mark_setMark h htarget next x

theorem sameAt_discovered (h : s.Sized nodeCount withCosts) (htarget : target < nodeCount)
    (next node paths : Nat) {x : Nat} (hx : x ≠ target) : s.SameAt (s.discovered target next node paths) x :=
  (sameAt_setMark h htarget next hx).trans (sameAt_addPredecessor _ hx node paths)

omit [PathCost κ] in
theorem reach_of_unvisited (h : s.Sized nodeCount withCosts) (htarget : target < nodeCount)
    (hmark : s.mark target = 0) (node next paths : Nat) (later : List Nat) :
    reach node next paths (s, later) target =
      (s.discovered target next node paths, target :: later) := by
  have hnew : (s.setMark target next).mark target = next := by
    rw [mark_setMark h htarget, if_pos rfl]
  simp only [reach, if_pos hmark]
  exact if_pos hnew

omit [PathCost κ] in
theorem reach_of_next (next : Nat) (hmark : s.mark target = next + 1) (node paths : Nat) (later : List Nat) :
    reach node (next + 1) paths (s, later) target = (s.addPredecessor target node paths, later) := by
  have hvisited : s.mark target ≠ 0 := by omega
  simp only [reach, if_neg hvisited]
  exact if_pos hmark

omit [PathCost κ] in
theorem reach_of_other {next : Nat} (hvisited : s.mark target ≠ 0) (hmark : s.mark target ≠ next)
    (node paths : Nat) (later : List Nat) : reach node next paths (s, later) target = (s, later) := by
  simp only [reach, if_neg hvisited]
  exact if_neg hmark

namespace Levels

/-- A node that has not been visited is a hop farther than the one it is visited from. -/
theorem explored_discovered (h : Levels source nodeCount withCosts level followed s rest later)
    (hsettled : s.settled = node :: before) (hmark : s.mark node = level) (htarget : target < nodeCount)
    (hunvisited : s.mark target = 0) {followed' : Ways}
    (hfollows : Follows followed followed' node (target, 1)) :
    let s' := s.discovered target (level + 1) node (s.pathsTo node)
    Explored source followed' (s'.mark · ≠ 0) (fun v => s'.mark v - 1) s' := by
  have hexplored := h.explored
  have hnone := hexplored.untouched target (not_not.mpr hunvisited)
  have hnew : target ∉ s.settled := fun hmem => (h.mem_iff target).mp (List.mem_append_left _ hmem) hunvisited
  have hmarks := mark_discovered h.sized htarget (level + 1) node (s.pathsTo node)
  refine hexplored.improve hsettled one_pos hnew (fun hvisited => absurd hunvisited hvisited) hfollows
    ⟨fun x => ?_, fun x => ?_⟩ rfl (fun x hx => sameAt_discovered h.sized htarget _ _ _ hx) ?_ ?_
  · rw [hmarks]
    by_cases heq : x = target <;> simp [heq]
  · rw [hmarks, hmark]
    by_cases heq : x = target
    · rw [if_pos heq, if_pos heq]
      push_cast
      ring
    · rw [if_neg heq, if_neg heq]
  · have hle := hexplored.pathsTo_le (hexplored.reached_of_mem node (hsettled ▸ List.mem_cons_self))
    rw [discovered, pathsTo_addPredecessor (h.sized.setMark _ _) htarget]
    change addPaths (s.pathsTo target) _ = _
    rw [hnone.pathsTo, addPaths, Nat.zero_add, Nat.min_eq_left hle]
  · rw [discovered, predecessorsOf_addPredecessor (h.sized.setMark _ _) htarget]
    change _ :: s.predecessorsOf target = _
    rw [hnone.predecessorsOf]

/-- A relationship to a node that has not been visited puts it on the next level. -/
theorem discover (h : Levels source nodeCount withCosts level followed s rest later)
    (hsettled : s.settled = node :: before) (hmark : s.mark node = level) (htarget : target < nodeCount)
    (hunvisited : s.mark target = 0) {followed' : Ways}
    (hfollows : Follows followed followed' node (target, 1)) :
    Levels source nodeCount withCosts level followed' (s.discovered target (level + 1) node (s.pathsTo node)) rest
      (target :: later) := by
  have hnotin : target ∉ s.settled ++ (rest ++ later) := fun hmem => (h.mem_iff target).mp hmem hunvisited
  have hmarks := mark_discovered h.sized htarget (level + 1) node (s.pathsTo node)
  have hne : ∀ x, x ∈ s.settled ++ (rest ++ later) → x ≠ target := fun x hx heq => hnotin (heq ▸ hx)
  constructor
  case sized => exact (h.sized.setMark _ _).addPredecessor _ _ _
  case explored => exact h.explored_discovered hsettled hmark htarget hunvisited hfollows
  case nodup =>
    have hperm : (s.settled ++ (rest ++ target :: later)).Perm (target :: (s.settled ++ (rest ++ later))) := by
      rw [← List.append_assoc, ← List.append_assoc]
      exact List.perm_middle
    exact hperm.nodup_iff.mpr (List.nodup_cons.mpr ⟨hnotin, h.nodup⟩)
  case mem_iff =>
    intro x
    have hold := h.mem_iff x
    simp only [List.mem_append] at hold
    rw [hmarks]
    simp only [List.mem_append, List.mem_cons]
    by_cases heq : x = target
    · simp only [heq, true_or, or_true, if_true, true_iff]
      exact Nat.succ_ne_zero _
    · rw [if_neg heq, ← hold]
      simp only [heq, false_or]
      exact Iff.rfl
  case mark_settled =>
    intro x hx
    rw [hmarks, if_neg (hne x (List.mem_append_left _ hx))]
    exact h.mark_settled x hx
  case mark_rest =>
    intro x hx
    rw [hmarks, if_neg (hne x (List.mem_append_right _ (List.mem_append_left _ hx)))]
    exact h.mark_rest x hx
  case mark_later =>
    intro x hx
    rw [hmarks]
    split
    · rfl
    · rename_i hx'
      exact h.mark_later x ((List.mem_cons.mp hx).resolve_left hx')

/-- A relationship to a node of the next level is the end of more shortest paths to it. -/
theorem meet (h : Levels source nodeCount withCosts level followed s rest later)
    (hsettled : s.settled = node :: before) (hmark : s.mark node = level) (htarget : target < nodeCount)
    (hnext : s.mark target = level + 1) {followed' : Ways}
    (hfollows : Follows followed followed' node (target, 1)) :
    Levels source nodeCount withCosts level followed' (s.addPredecessor target node (s.pathsTo node)) rest
      later := by
  have hnotin : target ∉ s.settled := by
    intro hmem
    have := h.mark_settled target hmem
    omega
  have hvisited : s.mark target ≠ 0 := by omega
  refine ⟨h.sized.addPredecessor _ _ _, ?_, h.nodup, h.mem_iff, h.mark_settled, h.mark_rest, h.mark_later⟩
  refine h.explored.join (hsettled ▸ List.mem_cons_self) hnotin hvisited ?_ hfollows rfl
    (fun x hx => sameAt_addPredecessor s hx _ _) (pathsTo_addPredecessor h.sized htarget _ _)
    (predecessorsOf_addPredecessor h.sized htarget _ _)
  rw [hmark, hnext]
  push_cast
  ring

/-- A relationship to a node of this level or an earlier one is a detour. -/
theorem skip (h : Levels source nodeCount withCosts level followed s rest later)
    (hsettled : s.settled = node :: before) (hmark : s.mark node = level) (hvisited : s.mark target ≠ 0)
    (hnext : s.mark target ≠ level + 1) {followed' : Ways}
    (hfollows : Follows followed followed' node (target, 1)) :
    Levels source nodeCount withCosts level followed' s rest later := by
  refine ⟨h.sized, ?_, h.nodup, h.mem_iff, h.mark_settled, h.mark_rest, h.mark_later⟩
  refine h.explored.pass (hsettled ▸ List.mem_cons_self) hvisited ?_ hfollows
  have hle := h.mark_le target
  have hlt : s.mark target < level + 1 := by omega
  have hlt : (s.mark target : ℚ) < level + 1 := by exact_mod_cast hlt
  rw [hmark]
  linarith

end Levels

/-! ## One node -/

/-- The state of the search while the relationships of one node are followed. -/
structure Expanding (source nodeCount : Nat) (withCosts : Bool) (level : Nat) (ways : Ways) (start : Search κ ρ)
    (before : List Nat) (node : Nat) (rest : List Nat) (done : List (Nat × ℚ))
    (state : Search κ ρ × List Nat) : Prop where
  /-- The search is at a level. -/
  levels : Levels source nodeCount withCosts level (followedUpTo ways before node done) state.1 rest state.2
  /-- The node has just been settled. -/
  settled_eq : state.1.settled = node :: before
  /-- It is on this level. -/
  mark_eq : state.1.mark node = level
  /-- Its paths have been counted. -/
  pathsTo_eq : state.1.pathsTo node = start.pathsTo node
  /-- Dependencies are not touched. -/
  dependency_eq : state.1.dependency = start.dependency

theorem Expanding.reach {ways : Ways} {start : Search κ ρ} {done : List (Nat × ℚ)} {state : Search κ ρ × List Nat}
    (h : Expanding source nodeCount withCosts level ways start before node rest done state)
    (htarget : target < nodeCount) :
    Expanding source nodeCount withCosts level ways start before node rest (done ++ [(target, 1)])
      (Search.reach node (level + 1) (start.pathsTo node) state target) := by
  obtain ⟨s, later⟩ := state
  obtain ⟨hlevels, hsettled, hmark, hpaths, hdependency⟩ := h
  dsimp only at hlevels hsettled hmark hpaths hdependency
  have hfollows := follows_followedUpTo ways before node done (target, 1)
  have hlevel : level ≠ 0 := by
    rw [← hmark]
    exact hlevels.explored.reached_of_mem node (hsettled ▸ List.mem_cons_self)
  rw [← hpaths]
  by_cases hunvisited : s.mark target = 0
  · have hne : node ≠ target := by
      rintro rfl
      omega
    have hsame := sameAt_discovered hlevels.sized htarget (level + 1) node (s.pathsTo node) hne
    rw [reach_of_unvisited hlevels.sized htarget hunvisited]
    exact ⟨hlevels.discover hsettled hmark htarget hunvisited hfollows, hsettled, hsame.mark.trans hmark,
      hsame.pathsTo.trans hpaths, hdependency⟩
  · by_cases hnext : s.mark target = level + 1
    · have hne : node ≠ target := by
        rintro rfl
        omega
      rw [reach_of_next level hnext]
      exact ⟨hlevels.meet hsettled hmark htarget hnext hfollows, hsettled, hmark,
        (sameAt_addPredecessor s hne _ _).pathsTo.trans hpaths, hdependency⟩
    · rw [reach_of_other hunvisited hnext]
      exact ⟨hlevels.skip hsettled hmark hunvisited hnext hfollows, hsettled, hmark, hpaths, hdependency⟩

theorem Expanding.foldl {ways : Ways} {start : Search κ ρ} (todo : List Nat) {done : List (Nat × ℚ)}
    {state : Search κ ρ × List Nat} (hlt : ∀ target ∈ todo, target < nodeCount)
    (h : Expanding source nodeCount withCosts level ways start before node rest done state) :
    Expanding source nodeCount withCosts level ways start before node rest (done ++ todo.map (·, 1))
      (todo.foldl (Search.reach node (level + 1) (start.pathsTo node)) state) := by
  induction todo generalizing done state with
  | nil => rwa [List.map_nil, List.append_nil]
  | cons target todo ih =>
    have hnext := ih (fun x hx => hlt x (List.mem_cons_of_mem _ hx)) (h.reach (hlt target List.mem_cons_self))
    rwa [List.append_assoc] at hnext

/-- The node that is next on its level has been expanded. -/
theorem Levels.expand (h : Levels source nodeCount withCosts level (followedOf (hopWays targets) s.settled) s
      (node :: rest) later) (htargets : ∀ u, ∀ target ∈ targets u, target < nodeCount) :
    let state := Search.expand targets (s, later) node
    Levels source nodeCount withCosts level (followedOf (hopWays targets) (node :: s.settled)) state.1 rest
      state.2 ∧ state.1.settled = node :: s.settled ∧ state.1.dependency = s.dependency := by
  have hmark := h.mark_rest node List.mem_cons_self
  have hnodup := h.nodup
  have hnew : node ∉ s.settled := fun hmem =>
    (List.nodup_append.mp hnodup).2.2 node hmem node (by simp) rfl
  have hvisited : s.mark node ≠ 0 := (h.mem_iff node).mp (by simp)
  have hperm : (s.settled ++ (node :: rest ++ later)).Perm (node :: s.settled ++ (rest ++ later)) :=
    List.perm_middle
  -- the node is settled before its relationships are followed
  have hstart : Expanding source nodeCount withCosts level (hopWays targets) s s.settled node rest []
      ({ s with settled := node :: s.settled }, later) := by
    refine ⟨?_, rfl, hmark, rfl, rfl⟩
    rw [followedUpTo_nil _ hnew]
    constructor
    case sized => exact ⟨h.sized.paths, h.sized.dependency, h.sized.distance, h.sized.cost, h.sized.predecessors⟩
    case explored =>
      refine h.explored.settle hvisited hnew ?_ rfl (fun x _ => ⟨rfl, rfl, rfl, rfl⟩) rfl rfl
      intro x hx hxn
      have hle : level ≤ s.mark x := by
        have hplace := (h.mem_iff x).mpr hx
        simp only [List.mem_append] at hplace
        rcases hplace with hplace | hplace | hplace
        · exact absurd hplace hxn
        · exact (h.mark_rest x hplace).ge
        · rw [h.mark_later x hplace]
          exact Nat.le_succ _
      have hle : (level : ℚ) ≤ s.mark x := by exact_mod_cast hle
      rw [hmark]
      linarith
    case nodup => exact hperm.nodup_iff.mp hnodup
    case mem_iff => exact fun v => hperm.mem_iff.symm.trans (h.mem_iff v)
    case mark_settled => exact List.forall_mem_cons.mpr ⟨hmark.le, h.mark_settled⟩
    case mark_rest => exact fun v hv => h.mark_rest v (List.mem_cons_of_mem _ hv)
    case mark_later => exact h.mark_later
  have hend := hstart.foldl (targets node) (htargets node)
  have hexpand : Search.expand targets (s, later) node =
      (targets node).foldl (Search.reach node (level + 1) (s.pathsTo node))
        ({ s with settled := node :: s.settled }, later) := by
    rw [← hmark]
    rfl
  rw [hexpand]
  refine ⟨?_, hend.settled_eq, hend.dependency_eq⟩
  rw [← followedUpTo_self]
  exact hend.levels

/-! ## One level -/

theorem Levels.expandAll (htargets : ∀ u, ∀ target ∈ targets u, target < nodeCount) (todo : List Nat) :
    ∀ (s : Search κ ρ) (later : List Nat),
    Levels source nodeCount withCosts level (followedOf (hopWays targets) s.settled) s todo later →
    let state := todo.foldl (Search.expand targets) (s, later)
    Levels source nodeCount withCosts level (followedOf (hopWays targets) state.1.settled) state.1 [] state.2 ∧
      state.1.settled = todo.reverse ++ s.settled ∧ state.1.dependency = s.dependency := by
  induction todo with
  | nil => exact fun s later h => ⟨h, rfl, rfl⟩
  | cons node todo ih =>
    intro s later h
    obtain ⟨hlevels, hsettled, hdependency⟩ := h.expand htargets
    rw [← hsettled] at hlevels
    obtain ⟨hlevels, hsettled', hdependency'⟩ := ih _ _ hlevels
    refine ⟨hlevels, hsettled'.trans ?_, hdependency'.trans hdependency⟩
    rw [hsettled, List.reverse_cons, List.append_assoc, List.singleton_append]

/-- When a level is finished, what has been found becomes the level. -/
theorem Levels.next (h : Levels source nodeCount withCosts level followed s [] later) :
    Levels source nodeCount withCosts (level + 1) followed s later.reverse [] := by
  have hperm : (s.settled ++ (later.reverse ++ [])).Perm (s.settled ++ ([] ++ later)) := by
    rw [List.append_nil, List.nil_append]
    exact (List.reverse_perm later).append_left _
  constructor
  case sized => exact h.sized
  case explored => exact h.explored
  case nodup => exact hperm.nodup_iff.mpr h.nodup
  case mem_iff => exact fun v => hperm.mem_iff.trans (h.mem_iff v)
  case mark_settled => exact fun v hv => (h.mark_settled v hv).trans (Nat.le_succ _)
  case mark_rest => exact fun v hv => h.mark_later v (List.mem_reverse.mp hv)
  case mark_later => exact fun v hv => absurd hv List.not_mem_nil

/-- There is no more to settle than there are nodes. -/
theorem Levels.length_le (h : Levels source nodeCount withCosts level followed s rest later) :
    s.settled.length + rest.length ≤ nodeCount := by
  have hsub : s.settled ++ (rest ++ later) ⊆ List.range nodeCount := fun v hv =>
    List.mem_range.mpr (mark_lt h.sized ((h.mem_iff v).mp hv))
  have hle := (List.subperm_of_subset h.nodup hsub).length_le
  rw [List.length_append, List.length_append, List.length_range] at hle
  omega

/-- When a level has been expanded, the search is at the next one. -/
theorem Levels.expandLevel (htargets : ∀ u, ∀ target ∈ targets u, target < nodeCount) {todo : List Nat}
    (h : Levels source nodeCount withCosts level (followedOf (hopWays targets) s.settled) s todo []) :
    let state := todo.foldl (Search.expand targets) (s, [])
    Levels source nodeCount withCosts (level + 1) (followedOf (hopWays targets) state.1.settled) state.1
      state.2.reverse [] ∧ state.1.settled = todo.reverse ++ s.settled ∧ state.1.dependency = s.dependency := by
  obtain ⟨hlevels, hsettled, hdependency⟩ := Levels.expandAll htargets todo s [] h
  exact ⟨hlevels.next, hsettled, hdependency⟩

omit [PathCost κ] in
/-- **Levels end in time**, and what every level keeps holds at the end. -/
theorem expandLevels_induction (nodeCount : Nat) (Inv : Search κ ρ → List Nat → Prop)
    (hbounds : ∀ s todo, Inv s todo → s.settled.length + todo.length ≤ nodeCount)
    (hstep : ∀ s todo, Inv s todo →
      Inv (todo.foldl (Search.expand targets) (s, [])).1 (todo.foldl (Search.expand targets) (s, [])).2.reverse ∧
        (todo.foldl (Search.expand targets) (s, [])).1.settled = todo.reverse ++ s.settled)
    (steps : Nat) :
    ∀ s todo, nodeCount < steps + s.settled.length → Inv s todo →
      Inv (Search.expandLevels targets steps s todo) [] := by
  induction steps with
  | zero =>
    intro s todo hsteps h
    have := hbounds s todo h
    omega
  | succ steps ih =>
    intro s todo hsteps h
    cases todo with
    | nil => exact h
    | cons node todo =>
      obtain ⟨hnext, hsettled⟩ := hstep s (node :: todo) h
      have hmore : nodeCount < steps + ((node :: todo).foldl (Search.expand targets) (s, [])).1.settled.length := by
        rw [hsettled, List.length_append, List.length_reverse, List.length_cons]
        omega
      exact ih _ _ hmore hnext

/-! ## The whole search -/

section

variable [Reckoning ρ]

/-- New buffers in which the source has been visited. -/
def begun (nodeCount : Nat) (withCosts : Bool) (source : Nat) : Search κ ρ :=
  { new nodeCount withCosts with
    paths := (Array.replicate nodeCount 0).setIfInBounds source 1
    distance := (Array.replicate nodeCount 0).setIfInBounds source 1 }

theorem breadthFirst_new (targets : Nat → List Nat) (nodeCount source : Nat) (withCosts : Bool) :
    (new nodeCount withCosts : Search κ ρ).breadthFirst targets source =
      expandLevels targets (nodeCount + 1) (begun nodeCount withCosts source) [source] := by
  rw [breadthFirst, (sized_new nodeCount withCosts).distance]
  rfl

/-- The first level is the source. -/
theorem levels_begun (hsource : source < nodeCount) (withCosts : Bool) (ways : Ways) :
    Levels source nodeCount withCosts 1 (followedOf ways []) (begun nodeCount withCosts source : Search κ ρ)
      [source] [] := by
  have hnew : (new nodeCount withCosts : Search κ ρ).Sized nodeCount withCosts := sized_new _ _
  have huntouched : ∀ v, (new nodeCount withCosts : Search κ ρ).Untouched v := untouched_new _ _
  have hmark : ∀ v, (begun nodeCount withCosts source : Search κ ρ).mark v = if v = source then 1 else 0 :=
    getD_setIfInBounds_replicate hsource 0 1
  have hpaths : ∀ v, (begun nodeCount withCosts source : Search κ ρ).pathsTo v = if v = source then 1 else 0 :=
    getD_setIfInBounds_replicate hsource 0 1
  have hvisited : ∀ v, (begun nodeCount withCosts source : Search κ ρ).mark v ≠ 0 ↔ v = source := by
    intro v
    rw [hmark]
    split <;> simp_all
  constructor
  case sized =>
    exact ⟨(Array.size_setIfInBounds ..).trans hnew.paths, hnew.dependency,
      (Array.size_setIfInBounds ..).trans hnew.distance, hnew.cost, hnew.predecessors⟩
  case explored =>
    rw [followedOf_nil]
    refine Explored.start rfl hvisited ?_ ?_ (huntouched source).predecessorsOf fun v hv => ?_
    · rw [hmark, if_pos rfl]
      norm_num
    · rw [hpaths, if_pos rfl]
    · exact ⟨by rw [hpaths, if_neg hv], (huntouched v).predecessorsOf, by rw [hmark, if_neg hv],
        (huntouched v).costOf⟩
  case nodup => exact List.nodup_singleton source
  case mem_iff => exact fun v => List.mem_singleton.trans (hvisited v).symm
  case mark_settled => exact fun v hv => absurd hv List.not_mem_nil
  case mark_rest =>
    intro v hv
    rw [hmark, if_pos (List.mem_singleton.mp hv)]
  case mark_later => exact fun v hv => absurd hv List.not_mem_nil

/-- **Breadth-first search finds everything.**  The marks are one more than the distances in hops. -/
theorem complete_breadthFirst (htargets : ∀ u, ∀ target ∈ targets u, target < nodeCount)
    (hsource : source < nodeCount) (withCosts : Bool) :
    let s := (new nodeCount withCosts : Search κ ρ).breadthFirst targets source
    s.Complete nodeCount withCosts (hopWays targets) source fun v => s.mark v - 1 := by
  rw [breadthFirst_new]
  obtain ⟨⟨last, hlast⟩, hdependency⟩ := expandLevels_induction nodeCount
    (fun s todo => (∃ level,
        Levels source nodeCount withCosts level (followedOf (hopWays targets) s.settled) s todo []) ∧
      s.dependency = (begun nodeCount withCosts source : Search κ ρ).dependency)
    (fun s todo h => h.1.elim fun _ h => h.length_le)
    (fun s todo ⟨⟨level, h⟩, hsame⟩ =>
      have hnext := h.expandLevel htargets
      ⟨⟨⟨level + 1, hnext.1⟩, hnext.2.2.trans hsame⟩, hnext.2.1⟩)
    (nodeCount + 1) (begun nodeCount withCosts source : Search κ ρ) [source] (Nat.lt_succ_self _)
    ⟨⟨1, levels_begun hsource _ _⟩, rfl⟩
  have hsettled := hlast.mem_iff
  simp only [List.append_nil] at hsettled
  constructor
  case found =>
    exact hlast.explored.found (positive_hopWays targets) (fun v hv => (hsettled v).mpr hv)
      fun u hu => if_pos hu
  case sized => exact hlast.sized
  case dependencyOf =>
    intro v
    rw [dependencyOf, hdependency]
    exact getD_replicate_self ..
  case settled_lt => exact fun v hv => mark_lt hlast.sized ((hsettled v).mp hv)

end

end Search

end PackedGraph
