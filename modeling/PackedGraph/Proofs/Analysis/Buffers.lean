import PackedGraph.Analysis.Search

/-!
# The buffers of a search

What the buffers say about one node, and what a change at one node does to them.  A search that touches a
node changes what is noted about that node only, and keeps the buffers' sizes; buffers that have the right
sizes and say nothing about any node are new ones.

Main statements: `Search.Sized.addPredecessor`, `Search.sameAt_addPredecessor` and `Search.Sized.eq_new`.
-/

namespace PackedGraph

/-! ## Entries of an array -/

section

variable {α : Type} {xs : Array α} {i : Nat}

theorem getD_of_le (h : xs.size ≤ i) (fallback : α) : xs.getD i fallback = fallback := by
  rw [Array.getD_eq_getD_getElem?, Array.getElem?_eq_none h]
  rfl

theorem getD_setIfInBounds_of_ne {j : Nat} (h : j ≠ i) (x fallback : α) :
    (xs.setIfInBounds i x).getD j fallback = xs.getD j fallback := by
  rw [Array.getD_eq_getD_getElem?, Array.getElem?_setIfInBounds, if_neg (Ne.symm h), Array.getD_eq_getD_getElem?]

theorem getD_setIfInBounds (h : i < xs.size) (x : α) (j : Nat) (fallback : α) :
    (xs.setIfInBounds i x).getD j fallback = if j = i then x else xs.getD j fallback := by
  by_cases heq : j = i
  · subst heq
    rw [if_pos rfl, Array.getD_eq_getD_getElem?, Array.getElem?_setIfInBounds, if_pos rfl, if_pos h]
    rfl
  · rw [if_neg heq, getD_setIfInBounds_of_ne heq]

/-- An entry that is set to what is read beyond the end can be read anywhere. -/
theorem getD_setIfInBounds_self (xs : Array α) (i : Nat) (x : α) : (xs.setIfInBounds i x).getD i x = x := by
  by_cases h : i < xs.size
  · rw [getD_setIfInBounds h, if_pos rfl]
  · exact getD_of_le (by rw [Array.size_setIfInBounds]; exact Nat.le_of_not_lt h) x

theorem getD_modify_of_ne {j : Nat} (h : j ≠ i) (f : α → α) (fallback : α) :
    (xs.modify i f).getD j fallback = xs.getD j fallback := by
  rw [Array.getD_eq_getD_getElem?, Array.getElem?_modify, if_neg (Ne.symm h), Array.getD_eq_getD_getElem?]

theorem getD_modify_entry (h : i < xs.size) (f : α → α) (j : Nat) (fallback : α) :
    (xs.modify i f).getD j fallback = if j = i then f (xs.getD j fallback) else xs.getD j fallback := by
  by_cases heq : j = i
  · subst heq
    rw [if_pos rfl, Array.getD_eq_getD_getElem?, Array.getElem?_modify, if_pos rfl, Array.getD_eq_getD_getElem?,
      Array.getElem?_eq_getElem h]
    rfl
  · rw [if_neg heq, getD_modify_of_ne heq]

theorem getD_replicate_self (size i : Nat) (x : α) : (Array.replicate size x).getD i x = x := by
  rw [Array.getD_eq_getD_getElem?, Array.getElem?_replicate]
  split <;> rfl

theorem getD_setIfInBounds_replicate {size : Nat} (h : i < size) (fallback x : α) (j : Nat) :
    ((Array.replicate size fallback).setIfInBounds i x).getD j fallback = if j = i then x else fallback := by
  rw [getD_setIfInBounds (by rwa [Array.size_replicate]), getD_replicate_self]

/-- An array that holds nothing but one value. -/
theorem eq_replicate_of_getD {size : Nat} {x : α} (hsize : xs.size = size) (h : ∀ i < size, xs.getD i x = x) :
    xs = Array.replicate size x := by
  refine Array.ext (by rw [hsize, Array.size_replicate]) fun i hi _ => ?_
  have hget := h i (hsize ▸ hi)
  rw [Array.getD_eq_getD_getElem?, Array.getElem?_eq_getElem hi] at hget
  rw [Array.getElem_replicate]
  exact hget

end

namespace Search

variable {κ ρ : Type} [PathCost κ]

/-! ## Entries of the buffers -/

/-- The nodes noted in front of a node. -/
def predecessorsOf (s : Search κ ρ) (node : Nat) : List Nat := s.predecessors.getD node []

/-- The buffers agree on a node. -/
structure SameAt (s s' : Search κ ρ) (node : Nat) : Prop where
  /-- So many paths lead to it. -/
  pathsTo : s'.pathsTo node = s.pathsTo node
  /-- The nodes in front of it are the same. -/
  predecessorsOf : s'.predecessorsOf node = s.predecessorsOf node
  /-- So is its mark. -/
  mark : s'.mark node = s.mark node
  /-- So is its cost. -/
  costOf : s'.costOf node = s.costOf node

/-- Nothing is noted about a node. -/
structure Untouched (s : Search κ ρ) (node : Nat) : Prop where
  /-- No paths lead to it. -/
  pathsTo : s.pathsTo node = 0
  /-- No nodes are in front of it. -/
  predecessorsOf : s.predecessorsOf node = []
  /-- It has not been visited. -/
  mark : s.mark node = 0
  /-- Nor reached at any cost. -/
  costOf : s.costOf node = PathCost.unreached

theorem Untouched.of_sameAt {s s' : Search κ ρ} {node : Nat} (h : s.Untouched node) (hsame : s.SameAt s' node) :
    s'.Untouched node :=
  ⟨hsame.pathsTo.trans h.pathsTo, hsame.predecessorsOf.trans h.predecessorsOf, hsame.mark.trans h.mark,
    hsame.costOf.trans h.costOf⟩

theorem SameAt.refl (s : Search κ ρ) (node : Nat) : s.SameAt s node := ⟨rfl, rfl, rfl, rfl⟩

theorem SameAt.trans {s s' s'' : Search κ ρ} {node : Nat} (h : s.SameAt s' node) (h' : s'.SameAt s'' node) :
    s.SameAt s'' node :=
  ⟨h'.pathsTo.trans h.pathsTo, h'.predecessorsOf.trans h.predecessorsOf, h'.mark.trans h.mark,
    h'.costOf.trans h.costOf⟩

/-! ## Sizes -/

/-- The buffers have room for so many nodes. -/
structure Sized (nodeCount : Nat) (withCosts : Bool) (s : Search κ ρ) : Prop where
  /-- There is a count of paths for every node, -/
  paths : s.paths.size = nodeCount
  /-- a dependency, -/
  dependency : s.dependency.size = nodeCount
  /-- a mark, -/
  distance : s.distance.size = nodeCount
  /-- where paths have costs a cost, -/
  cost : s.cost.size = if withCosts then nodeCount else 0
  /-- and a list of predecessors. -/
  predecessors : s.predecessors.size = nodeCount

section

variable {s : Search κ ρ} {nodeCount node : Nat} {withCosts : Bool}

omit [PathCost κ] in
theorem Sized.addPredecessor (h : s.Sized nodeCount withCosts) (node predecessor paths : Nat) :
    (s.addPredecessor node predecessor paths).Sized nodeCount withCosts :=
  ⟨(Array.size_modify ..).trans h.paths, h.dependency, h.distance, h.cost,
    (Array.size_modify ..).trans h.predecessors⟩

/-- What is noted about other nodes stays when one more predecessor of a node is found. -/
theorem sameAt_addPredecessor (s : Search κ ρ) {node x : Nat} (hx : x ≠ node) (predecessor paths : Nat) :
    s.SameAt (s.addPredecessor node predecessor paths) x :=
  ⟨getD_modify_of_ne hx _ _, getD_modify_of_ne hx _ _, rfl, rfl⟩

omit [PathCost κ] in
theorem pathsTo_addPredecessor (h : s.Sized nodeCount withCosts) (hnode : node < nodeCount)
    (predecessor paths : Nat) :
    (s.addPredecessor node predecessor paths).pathsTo node = addPaths (s.pathsTo node) paths := by
  rw [pathsTo, addPredecessor, getD_modify_entry (h.paths.symm ▸ hnode), if_pos rfl, pathsTo]

omit [PathCost κ] in
theorem predecessorsOf_addPredecessor (h : s.Sized nodeCount withCosts) (hnode : node < nodeCount)
    (predecessor paths : Nat) :
    (s.addPredecessor node predecessor paths).predecessorsOf node = predecessor :: s.predecessorsOf node := by
  rw [predecessorsOf, addPredecessor, getD_modify_entry (h.predecessors.symm ▸ hnode), if_pos rfl,
    predecessorsOf]

end

/-! ## Empty buffers -/

variable [Reckoning ρ]

/-- What a node's successors on shortest paths have added up. -/
def dependencyOf (s : Search κ ρ) (node : Nat) : ρ := s.dependency.getD node (Reckoning.ofCount 0)

theorem sized_new (nodeCount : Nat) (withCosts : Bool) :
    (new nodeCount withCosts : Search κ ρ).Sized nodeCount withCosts := by
  refine ⟨Array.size_replicate, Array.size_replicate, Array.size_replicate, ?_, Array.size_replicate⟩
  rw [new]
  split
  · exact Array.size_replicate
  · rfl

theorem untouched_new (nodeCount : Nat) (withCosts : Bool) (node : Nat) :
    (new nodeCount withCosts : Search κ ρ).Untouched node := by
  refine ⟨getD_replicate_self .., getD_replicate_self .., getD_replicate_self .., ?_⟩
  rw [costOf, new]
  split
  · exact getD_replicate_self ..
  · rfl

/-- Buffers of the right sizes that say nothing about any node are new. -/
theorem Sized.eq_new {s : Search κ ρ} {nodeCount : Nat} {withCosts : Bool} (h : s.Sized nodeCount withCosts)
    (huntouched : ∀ node, s.Untouched node) (hdependency : ∀ node, s.dependencyOf node = Reckoning.ofCount 0)
    (hsettled : s.settled = []) : s = new nodeCount withCosts := by
  have hpaths := eq_replicate_of_getD h.paths fun i _ => (huntouched i).pathsTo
  have hdependency := eq_replicate_of_getD h.dependency fun i _ => hdependency i
  have hdistance := eq_replicate_of_getD h.distance fun i _ => (huntouched i).mark
  have hcost := eq_replicate_of_getD h.cost fun i _ => (huntouched i).costOf
  have hpredecessors := eq_replicate_of_getD h.predecessors fun i _ => (huntouched i).predecessorsOf
  obtain ⟨paths, dependency, distance, cost, predecessors, settled⟩ := s
  subst hpaths hdependency hdistance hpredecessors hcost hsettled
  rw [new]
  congr 1
  cases withCosts <;> rfl

end Search

end PackedGraph
