import Mathlib.Data.Set.Card
import Mathlib.Logic.Relation
import Mathlib.Order.Bounds.Basic
import PackedGraph.Analysis.Components
import PackedGraph.Proofs.Analysis.DisjointSets
import PackedGraph.Proofs.Graph.Built
import PackedGraph.Proofs.Workers.HandOut

/-!
# Connected components

Nodes are *joined* if a way of relationships leads from one to the other, whatever the directions.  The
unions of a run are one for every relationship, in an order that depends on the workers; whatever the
order, two nodes have one root at the end exactly if they are joined.  The smaller root stays one, so the
root is the smallest node of the component, and there are as many components as nodes that are their own
root.

Main statement: `components_of_built`.
-/

namespace PackedGraph

/-! ## What components are -/

/-- Whether a way of relationships leads from one node to another, their directions left aside. -/
def Graph.Joined (g : Graph) : Nat → Nat → Prop :=
  Relation.ReflTransGen fun a b => b ∈ g.targets a ∨ a ∈ g.targets b

/-- The nodes that are joined to a node. -/
def Graph.component (g : Graph) (node : Nat) : Set Nat := {other | g.Joined node other}

/-- Every relationship of a graph, as a pair of nodes. -/
def Graph.pairs (g : Graph) : List (Nat × Nat) :=
  g.nodeList.flatMap fun node => (g.targets node).map fun target => (node, target)

/-- Every node is represented by the smallest node of its component, and every component is counted
once. -/
structure Components.Exact (g : Graph) (c : Components) : Prop where
  /-- Every node has a representative. -/
  size_eq : c.representatives.size = g.nodeCount
  /-- It is the smallest node that is joined to the node. -/
  least : ∀ node (h : node < c.representatives.size),
    IsLeast (g.component node) c.representatives[node]
  /-- The components are counted. -/
  count_eq : c.count = {nodes | ∃ node < g.nodeCount, g.component node = nodes}.ncard

variable {g : Graph}

namespace Graph

theorem equivalence_joined (g : Graph) : Equivalence g.Joined := by
  have hsymm : Std.Symm fun a b => b ∈ g.targets a ∨ a ∈ g.targets b := ⟨fun a b => Or.symm⟩
  exact ⟨fun _ => Relation.ReflTransGen.refl, fun h => Relation.ReflTransGen.stdSymm.symm _ _ h,
    Relation.ReflTransGen.trans⟩

theorem joined_of_mem {a b : Nat} (h : b ∈ g.targets a) : g.Joined a b :=
  Relation.ReflTransGen.single (.inl h)

/-- Joined nodes have one component, and only they have. -/
theorem component_eq_iff {a b : Nat} : g.component a = g.component b ↔ g.Joined a b := by
  constructor
  · intro h
    have hmem : b ∈ g.component b := (g.equivalence_joined).refl b
    rwa [← h] at hmem
  · intro h
    ext node
    exact ⟨fun hnode => (g.equivalence_joined).trans ((g.equivalence_joined).symm h) hnode,
      fun hnode => (g.equivalence_joined).trans h hnode⟩

theorem Built.mem_pairs (h : g.Built) {pair : Nat × Nat} :
    pair ∈ g.pairs ↔ pair.2 ∈ g.targets pair.1 := by
  obtain ⟨a, b⟩ := pair
  simp only [pairs, nodeList, List.mem_flatMap, List.mem_range, List.mem_map, Prod.mk.injEq]
  constructor
  · rintro ⟨node, -, target, htarget, rfl, rfl⟩
    exact htarget
  · intro hmem
    exact ⟨a, h.source_lt hmem, b, hmem, rfl, rfl⟩

end Graph

/-! ## What unions do -/

namespace Components

open DisjointSets

/-- When every relationship has been united, in whatever order, two nodes have one root exactly if they
are joined. -/
theorem root_eq_iff_joined (hg : g.Built) {united : List (Nat × Nat)} (hunited : united.Perm g.pairs)
    {a b : Nat} :
    ((new g.nodeCount).unionAll united).root a = ((new g.nodeCount).unionAll united).root b ↔
      g.Joined a b := by
  have hmem : ∀ u v, (u, v) ∈ united ↔ v ∈ g.targets u := fun u v =>
    (hunited.mem_iff).trans (hg.mem_pairs)
  rw [root_unionAll_new_iff]
  · simp only [Connected, hmem]
    rfl
  · intro pair hpair
    have htarget := (hmem pair.1 pair.2).mp hpair
    exact ⟨hg.source_lt htarget, hg.target_lt htarget⟩

/-- The root of a node is the smallest node of its component. -/
theorem isLeast_root (hg : g.Built) {united : List (Nat × Nat)} (hunited : united.Perm g.pairs)
    (node : Nat) :
    IsLeast (g.component node) (((new g.nodeCount).unionAll united).root node) := by
  have hleast := ((new g.nodeCount).unionAll united).isLeast_root node
  simp only [root_eq_iff_joined hg hunited] at hleast
  exact hleast

/-- The nodes that represent themselves, counted in the list of representatives. -/
theorem length_filter_zipIdx (representatives : Array Nat) :
    (representatives.toList.zipIdx.filter fun (representative, node) => representative == node).length =
      ((Finset.range representatives.size).filter fun node =>
        representatives[node]? = some node).card := by
  have hzip : representatives.toList.zipIdx =
      (List.range representatives.size).map fun node => (representatives[node]?.getD node, node) := by
    refine List.ext_getElem (by simp) fun node hleft hright => ?_
    simp only [List.length_map, List.length_range] at hright
    simp [hright]
  have hcard : ((Finset.range representatives.size).filter fun node =>
      representatives[node]? = some node).card =
        ((List.range representatives.size).filter fun node =>
          decide (representatives[node]? = some node)).length := rfl
  rw [hzip, hcard, List.filter_map, List.length_map]
  congr 1
  refine List.filter_congr fun node hnode => ?_
  have hlt := List.mem_range.mp hnode
  rw [Bool.eq_iff_iff]
  simp [hlt]

/-- The components are as many as the nodes that represent themselves. -/
theorem count_eq_ncard {c : Components} (hsize : c.representatives.size = g.nodeCount)
    (hleast : ∀ node (h : node < c.representatives.size),
      IsLeast (g.component node) c.representatives[node]) :
    c.count = {nodes | ∃ node < g.nodeCount, g.component node = nodes}.ncard := by
  have hown : ∀ node (h : node < c.representatives.size), IsLeast (g.component node) node ↔
      c.representatives[node] = node := by
    intro node h
    constructor
    · exact fun hmin => (hleast node h).unique hmin
    · intro heq
      have hmin := hleast node h
      rwa [heq] at hmin
  -- Each component is that of its least node, and no two of its nodes are least.
  have himage : {nodes | ∃ node < g.nodeCount, g.component node = nodes} =
      g.component '' {node | node < g.nodeCount ∧ IsLeast (g.component node) node} := by
    ext nodes
    constructor
    · rintro ⟨node, hnode, rfl⟩
      have hindex : node < c.representatives.size := hsize ▸ hnode
      have hmin := hleast node hindex
      have hjoined := Graph.component_eq_iff.mpr hmin.1
      refine ⟨c.representatives[node], ⟨?_, hjoined ▸ hmin⟩, hjoined.symm⟩
      exact (hmin.2 ((g.equivalence_joined).refl node)).trans_lt hnode
    · rintro ⟨node, ⟨hnode, -⟩, rfl⟩
      exact ⟨node, hnode, rfl⟩
  have hinj : Set.InjOn g.component {node | node < g.nodeCount ∧ IsLeast (g.component node) node} := by
    rintro a ⟨-, ha⟩ b ⟨-, hb⟩ heq
    exact ha.unique (heq ▸ hb)
  have hfilter : {node | node < g.nodeCount ∧ IsLeast (g.component node) node} =
      ((Finset.range g.nodeCount).filter fun node => c.representatives[node]? = some node) := by
    ext node
    simp only [Set.mem_ofPred_eq, Finset.coe_filter, Finset.mem_range]
    refine and_congr_right fun hnode => ?_
    rw [hown node (hsize ▸ hnode), Array.getElem?_eq_getElem (hsize ▸ hnode), Option.some.injEq]
  rw [himage, hinj.ncard_image, hfilter, Set.ncard_coe_finset, count, ← hsize]
  exact length_filter_zipIdx _

/-- All unions, in whatever order, find the components. -/
theorem exact_of_perm (hg : g.Built) {united : List (Nat × Nat)} (hunited : united.Perm g.pairs)
    (terminated : Bool) :
    Exact g ⟨((new g.nodeCount).unionAll united).roots, terminated⟩ := by
  have hsize : ((new g.nodeCount).unionAll united).roots.size = g.nodeCount := by
    rw [roots_eq]
    simp
  have hleast : ∀ node (h : node < ((new g.nodeCount).unionAll united).roots.size),
      IsLeast (g.component node) ((new g.nodeCount).unionAll united).roots[node] := by
    intro node h
    simp only [roots_eq, List.getElem_toArray, List.getElem_map, List.getElem_range]
    exact isLeast_root hg hunited node
  exact ⟨hsize, hleast, count_eq_ncard hsize hleast⟩

/-- The unions of a trace are one for every relationship of the visited nodes. -/
theorem setsOfTrace_eq (g : Graph) (trace : List Visit) :
    setsOfTrace g trace = (new g.nodeCount).unionAll
      ((trace.map Visit.node).flatMap fun node => (g.targets node).map fun target => (node, target)) := by
  have hfold : ∀ sets : DisjointSets, trace.foldl (fun sets v => uniteTargets g sets v.node) sets =
      sets.unionAll ((trace.map Visit.node).flatMap fun node =>
        (g.targets node).map fun target => (node, target)) := by
    induction trace with
    | nil => exact fun _ => rfl
    | cons v trace ih =>
      intro sets
      rw [List.foldl_cons, ih, List.map_cons, List.flatMap_cons, unionAll, unionAll, List.foldl_append,
        List.foldl_map]
      rfl
  exact hfold _

/-- A trace that hands out all nodes unites all relationships. -/
theorem exact_of_handsOut (hg : g.Built) {workers : Nat} {trace : List Visit}
    (htrace : HandsOut g.nodeCount workers trace) (terminated : Bool) :
    Exact g ⟨(setsOfTrace g trace).roots, terminated⟩ := by
  rw [setsOfTrace_eq]
  exact exact_of_perm hg (htrace.nodes.flatMap_right _) terminated

/-- A crew that has taken its steps in any order until all are back finds the components. -/
theorem exact_of_run (hg : g.Built) (pool : Pool) (concurrency : Nat) (progress : Progress)
    (schedule : List Nat) (hfinished : ((Crew.forPartitions pool (rangePartition g.nodeCount concurrency) false
      progress).run (StopAfter.task none) schedule).finished = true) (terminated : Bool) :
    Exact g ⟨(setsOfTrace g ((Crew.forPartitions pool (rangePartition g.nodeCount concurrency) false
      progress).run (StopAfter.task none) schedule).visits.toList).roots, terminated⟩ :=
  exact_of_handsOut hg (Crew.handsOut_of_run pool g.nodeCount concurrency progress (fun _ _ => rfl) schedule
    hfinished) _

/-- A run that nobody stops finds the components. -/
theorem exists_compute (hg : g.Built) (settings : ComponentSettings) (hconcurrency : 1 ≤ settings.concurrency) :
    ∃ c, compute g settings none = .ok c ∧ c.terminated = false ∧ Exact g c := by
  obtain ⟨htrace, hstopped⟩ := Crew.handsOut_trace ⟨settings.concurrency, hconcurrency⟩ g.nodeCount
    settings.concurrency (.new "WCC" g.nodeCount 10)
  have hvalid : settings.validate = .ok () := by
    rw [ComponentSettings.validate, checkConcurrency, if_neg (by omega)]
  have hpool : Pool.new? settings.concurrency = .ok ⟨settings.concurrency, hconcurrency⟩ :=
    dif_pos hconcurrency
  refine ⟨_, ?_, hstopped, exact_of_handsOut hg htrace _⟩
  rw [compute, hvalid, hpool]
  rfl

end Components

/-- **Components are exact.**  For every graph: in whatever order the relationships are united, in
whatever order the workers of a crew take their steps until all of them are back, and whatever the
settings of a run that nobody stops, the representative of a node is the smallest of the nodes that are
joined to it, and the components are counted. -/
theorem components_of_built (hg : g.Built) :
    (∀ united : List (Nat × Nat), united.Perm g.pairs → Components.Exact g
        ⟨(united.foldl (fun (sets : DisjointSets) pair => sets.union pair.1 pair.2) (.new g.nodeCount)).roots, false⟩) ∧
      (∀ (pool : Pool) (concurrency : Nat) (progress : Progress) (schedule : List Nat),
        let crew := (Crew.forPartitions pool (rangePartition g.nodeCount concurrency) false progress).run
          (StopAfter.task none) schedule
        crew.finished = true →
          Components.Exact g ⟨(Components.setsOfTrace g crew.visits.toList).roots, crew.stopped⟩) ∧
      ∀ settings : ComponentSettings, 1 ≤ settings.concurrency →
        ∃ c, Components.compute g settings none = .ok c ∧ c.terminated = false ∧
          Components.Exact g c := by
  exact ⟨fun united hunited => Components.exact_of_perm hg hunited false,
    fun pool concurrency progress schedule hfinished =>
      Components.exact_of_run hg pool concurrency progress schedule hfinished _,
    fun settings hconcurrency => Components.exists_compute hg settings hconcurrency⟩

/-- Two ways that meet, a node with a loop and a node without relationships. -/
theorem components_of_ways_that_meet :
    ∃ g : Graph, g.Built ∧ ∃ c, Components.compute g { concurrency := 2 } none = .ok c ∧
      c.representatives[0]? = some 0 ∧ c.representatives[2]? = some 1 ∧
      c.representatives[3]? = some 1 := by
  obtain ⟨g, hg, hcount, -, -, htargets⟩ := @Graph.exists_built (.identity 5) { concurrency := 2 } 0
    [.add 3 1 none, .add 2 1 none, .add 2 1 none, .add 4 4 none]
    (IdMap.valid_identity (by decide)) (by decide) (by decide) (by decide)
  have hmem : ∀ u < 5, ∀ v, v ∈ g.targets u ↔ 0 < Graph.storedCount (.identity 5) { concurrency := 2 }
      [.add 3 1 none, .add 2 1 none, .add 2 1 none, .add 4 4 none] u v := by
    intro u hu v
    rw [← htargets u hu, List.count_pos_iff]
  replace hcount : g.nodeCount = 5 := hcount
  obtain ⟨-, -, hcompute⟩ := components_of_built hg
  obtain ⟨c, hc, -, hsize, hleast, -⟩ := hcompute { concurrency := 2 } (by decide)
  rw [hcount] at hsize
  have halone : ∀ {a b : Nat}, g.Joined a b → (a = 0 ↔ b = 0) := by
    intro a b h
    induction h with
    | refl => rfl
    | @tail b c _ hlast ih =>
      -- no relationship has node 0 at one end
      have hstep : ∀ u v, v ∈ g.targets u → u ≠ 0 ∧ v ≠ 0 := by
        intro u v hv
        have hpairs : ∀ u < 5, ∀ v < 5, 0 < Graph.storedCount (.identity 5) { concurrency := 2 }
            [.add 3 1 none, .add 2 1 none, .add 2 1 none, .add 4 4 none] u v → u ≠ 0 ∧ v ≠ 0 := by
          decide
        have hu := hcount ▸ hg.source_lt hv
        exact hpairs u hu v (hcount ▸ hg.target_lt hv) ((hmem u hu v).mp hv)
      rcases hlast with hlast | hlast
      · have := hstep _ _ hlast
        simp [ih, this]
      · have := hstep _ _ hlast
        simp [ih, this]
  refine ⟨g, hg, c, hc, ?_⟩
  have hjoined : ∀ node, 1 ∈ g.targets node → (h : node < c.representatives.size) →
      c.representatives[node] = 1 := by
    intro node hnode h
    have hone := (hleast node h).2 (Graph.joined_of_mem hnode)
    have hself := (halone (hleast node h).1).not
    have hne : node ≠ 0 := by
      rintro rfl
      exact absurd ((hmem 0 (by decide) 1).mp hnode) (by decide)
    have := hself.mp hne
    omega
  have hzero := (hleast 0 (by omega)).2 ((g.equivalence_joined).refl 0)
  refine ⟨?_, ?_, ?_⟩
  · rw [Array.getElem?_eq_getElem (by omega)]
    exact congrArg some (Nat.le_zero.mp hzero)
  · rw [Array.getElem?_eq_getElem (by omega), hjoined 2 ((hmem 2 (by decide) 1).mpr (by decide))]
  · rw [Array.getElem?_eq_getElem (by omega), hjoined 3 ((hmem 3 (by decide) 1).mpr (by decide))]

end PackedGraph
