import Mathlib.Data.List.Sort
import PackedGraph.Proofs.Graph.Triangles

/-!
# One finder asked for one node after another

The triangles of a node are reported in the order of their corners, and a finder that has been asked for
other nodes, the same among them, reports what a new one does.  All its loops end by themselves: the rounds
over the larger neighbours, and the meetings of two cursors within them.

Main statement: `triangles_reported_in_order`.
-/

namespace PackedGraph

namespace Graph

/-- Each of two nodes is a target of the other. -/
def Adjacent (g : Graph) (u v : Nat) : Prop := v ∈ g.targets u ∧ u ∈ g.targets v

/-- Three ascending nodes, each two of them adjacent, and none with more relationships than a bound. -/
structure IsTriangle (g : Graph) (maxDegree : Nat) (t : Triangle) : Prop where
  /-- The corners ascend. -/
  ascending : t.a < t.b ∧ t.b < t.c
  /-- They are adjacent to each other. -/
  adjacent : g.Adjacent t.a t.b ∧ g.Adjacent t.a t.c ∧ g.Adjacent t.b t.c
  /-- Their degrees are within the bound. -/
  admitted : g.degree t.a ≤ maxDegree ∧ g.degree t.b ≤ maxDegree ∧ g.degree t.c ≤ maxDegree

variable {g : Graph} {maxDegree : Nat}

theorem Built.adjacent_iff (hg : g.Built) (hundirected : g.isUndirected = true) {u v : Nat} :
    g.Adjacent u v ↔ v ∈ g.targets u := by
  rw [Adjacent, hg.mem_comm hundirected, and_self]

/-- The triangles that are listed for a node are those of which it is the smallest corner. -/
theorem mem_trianglesFrom_iff (hg : g.Built) (hundirected : g.isUndirected = true) {a : Nat} {t : Triangle} :
    t ∈ g.trianglesFrom maxDegree a ↔ t.a = a ∧ g.IsTriangle maxDegree t := by
  simp only [mem_trianglesFrom, ← hg.adjacent_iff hundirected]
  exact and_congr_right fun _ => ⟨fun ⟨hasc, hadj, hdeg⟩ => ⟨hasc, hadj, hdeg⟩, fun ⟨hasc, hadj, hdeg⟩ =>
    ⟨hasc, hadj, hdeg⟩⟩

end Graph

namespace TriangleFinder

variable {g : Graph} {maxDegree : Nat} {f : TriangleFinder}

/-- The finder once it has been asked for some nodes, one after the other. -/
def after (f : TriangleFinder) (nodes : List Nat) : TriangleFinder :=
  nodes.foldl (fun f a => (f.trianglesOf a).2) f

theorem Ready.after (hg : g.Built) (h : f.Ready g maxDegree) (nodes : List Nat) :
    (f.after nodes).Ready g maxDegree := by
  induction nodes generalizing f with
  | nil => exact h
  | cons a nodes ih => exact ih (h.trianglesOf_eq hg a).2

/-- The loops of a finder that is asked for a node end when there is nothing left to look at. -/
structure Ends (f : TriangleFinder) (a : Nat) : Prop where
  /-- The larger neighbours run out, and then all triangles have been found. -/
  rounds : ∃ turns, ((Round.turn a)^[turns] (Round.start f a)).next = none ∧
    ((Round.turn a)^[turns] (Round.start f a)).found.toList = (f.trianglesOf a).1
  /-- In every round one of the two cursors runs out that look for the third corner. -/
  meetings : ∀ turns b, ∃ steps,
    (Meeting.turn^[steps] (((Round.turn a)^[turns] (Round.start f a)).finder.meeting a b)).ended = true

/-- The loops of a finder that is ready end. -/
theorem Ready.ends (hg : g.Built) (h : f.Ready g maxDegree) {a : Nat} (ha : g.degree a ≤ maxDegree) :
    f.Ends a where
  rounds := by
    obtain ⟨hend, hfound⟩ := (h.stands_start hg a).iterate_turn hg a
      ((g.targets a).filter fun b => decide (a < b)).length
    rw [List.take_length] at hfound
    refine ⟨_, hend.next_eq.trans (by rw [List.drop_length]; rfl), ?_⟩
    rw [hfound, (h.trianglesOf_eq hg a).1, Graph.trianglesFrom, if_pos ha]
    rfl
  meetings turns b := by
    obtain ⟨hround, -⟩ := (h.stands_start hg a).iterate_turn hg a turns
    obtain ⟨hstands, -⟩ := hround.ready.stands_meeting hg a b
    exact ⟨_, (hstands.iterate_turn le_rfl).1⟩

end TriangleFinder

/-- **Each triangle is reported once, in order.**  For every undirected graph without parallel relationships,
every bound on degrees and every nodes that a finder has been asked for before, it reports for a node exactly
the triangles of which the node is the smallest corner, in lexicographic order, as a new finder does; its loops
end. -/
theorem triangles_reported_in_order {g : Graph} (hg : g.Built) (hundirected : g.isUndirected = true)
    (hparallel : g.parallel = false) (maxDegree : Nat) :
    ∃ finder, g.triangleFinder? maxDegree = .ok finder ∧ ∀ (before : List Nat) (a : Nat),
      let reported := ((finder.after before).trianglesOf a).1
      (∀ t, t ∈ reported ↔ t.a = a ∧ g.IsTriangle maxDegree t) ∧ reported.Pairwise Triangle.Before ∧
        reported = (finder.trianglesOf a).1 ∧ (g.degree a ≤ maxDegree → (finder.after before).Ends a) := by
  have hfinder : g.triangleFinder? maxDegree = .ok ⟨g, maxDegree, g.rawCursor, g.rawCursor, g.rawCursor⟩ := by
    rw [Graph.triangleFinder?, hundirected, hparallel]
    rfl
  obtain ⟨-, -, hready⟩ := Graph.ready_of_triangleFinder hfinder
  refine ⟨_, hfinder, fun before a => ?_⟩
  have hafter := hready.after hg before
  rw [(hafter.trianglesOf_eq hg a).1, (hready.trianglesOf_eq hg a).1]
  exact ⟨fun t => Graph.mem_trianglesFrom_iff hg hundirected, Graph.pairwise_trianglesFrom hg hparallel a, rfl,
    hafter.ends hg⟩

/-- Calls for a triangle with a loop and a tail, and for a hub that is adjacent to all of their nodes. -/
def besideHub : List Call :=
  [.add 0 1 none, .add 1 2 none, .add 2 0 none, .add 0 0 none, .add 2 3 none, .add 4 0 none, .add 4 1 none,
    .add 4 2 none, .add 4 3 none, .add 4 5 none]

/-- The targets of its nodes, when every relationship is stored in both directions. -/
def rowsBesideHub : List (List Nat) := [[0, 1, 2, 4], [0, 2, 4], [0, 1, 3, 4], [2, 4], [0, 1, 2, 3, 5], [4]]

/-- A graph with these targets. -/
theorem exists_besideHub : ∃ g : Graph, g.Built ∧ g.isUndirected = true ∧ g.parallel = false ∧
    ∀ u, g.targets u = rowsBesideHub.getD u [] := by
  obtain ⟨g, hg, hcount, hundirected, hparallel, htargets⟩ := @Graph.exists_built (.identity 6)
    { concurrency := 2, orientation := .undirected, aggregation := .single } 0 besideHub
    (IdMap.valid_identity (by decide)) (by decide) (by decide) (by decide)
  replace hcount : g.nodeCount = 6 := hcount
  replace hparallel := hparallel (by decide)
  refine ⟨g, hg, by rw [hundirected]; decide, hparallel, fun u => ?_⟩
  by_cases hu : u < 6
  · refine (hg.strict hparallel u).eq_of_mem_iff (by revert u; decide) fun v => ?_
    by_cases hv : v < 6
    · rw [← List.count_pos_iff, htargets u hu]
      revert u v
      decide +kernel
    · have hrows : ∀ u < 6, ∀ v ∈ rowsBesideHub.getD u [], v < 6 := by decide
      exact iff_of_false (fun hmem => hv (hcount ▸ hg.target_lt hmem)) fun hmem => hv (hrows u hu v hmem)
  · rw [hg.targets_eq_nil (hcount ▸ Nat.le_of_not_lt hu), List.getD_eq_getElem?_getD,
      List.getElem?_eq_none (Nat.le_of_not_lt hu)]
    rfl

/-- Asked for two nodes first, the same among them, a finder reports the only triangle of a node that the hub
has no part in. -/
theorem triangle_reported_beside_hub : ∃ g : Graph, g.Built ∧ g.isUndirected = true ∧ g.parallel = false ∧
    ∃ finder, g.triangleFinder? 4 = .ok finder ∧
      ((finder.after [1, 0]).trianglesOf 0).1 = [⟨0, 1, 2⟩] ∧ (finder.after [1, 0]).Ends 0 := by
  obtain ⟨g, hg, hundirected, hparallel, htargets⟩ := exists_besideHub
  obtain ⟨finder, hfinder, hreports⟩ := triangles_reported_in_order hg hundirected hparallel 4
  obtain ⟨hmem, hordered, -, hends⟩ := hreports [1, 0] 0
  have hdegree : ∀ u, g.degree u = (rowsBesideHub.getD u []).length := fun u => by rw [hg.degree_eq, htargets]
  refine ⟨g, hg, hundirected, hparallel, finder, hfinder, ?_, hends (by rw [hdegree]; decide)⟩
  refine List.perm_singleton.mp ((List.perm_ext_iff_of_nodup (hordered.imp Triangle.Before.ne)
    (List.nodup_singleton _)).mpr fun t => (hmem t).trans ?_)
  rw [List.mem_singleton]
  constructor
  · obtain ⟨a, b, c⟩ := t
    rintro ⟨rfl, ⟨hab, hbc⟩, ⟨⟨hb, -⟩, ⟨hc, -⟩, -⟩, -, hdb, hdc⟩
    simp only [htargets, hdegree] at hab hbc hb hc hdb hdc
    have hcorners : ∀ b ∈ rowsBesideHub.getD 0 [], ∀ c ∈ rowsBesideHub.getD 0 [], 0 < b → b < c →
        (rowsBesideHub.getD b []).length ≤ 4 → (rowsBesideHub.getD c []).length ≤ 4 → b = 1 ∧ c = 2 := by decide
    obtain ⟨rfl, rfl⟩ := hcorners b hb c hc hab hbc hdb hdc
    rfl
  · rintro rfl
    refine ⟨rfl, ⟨?_, ?_, ?_⟩⟩
    · decide
    · simp only [Graph.Adjacent, htargets]
      decide
    · simp only [hdegree]
      decide

end PackedGraph
