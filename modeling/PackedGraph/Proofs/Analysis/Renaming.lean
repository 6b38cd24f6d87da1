import PackedGraph.Proofs.Analysis.Similarity
import PackedGraph.Proofs.Analysis.Triangles
import PackedGraph.Analysis.Betweenness
import PackedGraph.Analysis.Clusters
import PackedGraph.Proofs.Graph.Renaming

/-!
# Analyses see no names

An analysis works on dense ids.  In a graph with new names for its nodes it finds the same, on dense ids,
or fails for the same reason; the one reason that names a node is told of the new name.

Main statements: `TriangleCounts.compute_alike`, `Betweenness.compute_alike`, `Similarity.compute_alike`,
`Components.compute_alike` and `Components.clusters_withNodes`.
-/

namespace PackedGraph

variable {f : UInt64 → UInt64} {g : Graph} {nodes : IdMap}

/-! ## Settings and workers -/

namespace Nameless

theorem checkConcurrency (concurrency : Nat) : Nameless (checkConcurrency concurrency) := by
  unfold PackedGraph.checkConcurrency
  split
  · exact of_error id
  · exact of_ok ()

theorem checkPositive (name : String) (value : Nat) : Nameless (checkPositive name value) := by
  unfold PackedGraph.checkPositive
  split
  · exact of_error id
  · exact of_ok ()

theorem checkBound (name : String) (bound : Option Nat) : Nameless (checkBound name bound) := by
  cases bound with
  | none => exact of_ok ()
  | some value => exact checkPositive name value

theorem checkExclusive (first second : String) (left right : Option Nat) :
    Nameless (checkExclusive first second left right) := by
  cases left <;> cases right <;> first | exact of_ok () | exact of_error id

theorem pool (concurrency : Nat) : Nameless (Pool.new? concurrency) := by
  unfold Pool.new?
  split
  · exact of_ok _
  · exact of_error id

theorem selection (bound : Bound) : Nameless (Selection.new? bound) := by
  unfold Selection.new? reserve
  split
  · exact (of_ok ()).bind fun _ => of_ok _
  · exact of_error id

/-- A guard that names no node, in front of what names none. -/
theorem of_guard {α : Type} {guard : Prop} [Decidable guard] {cause : Fault} (h : ¬ cause.NamesNode)
    {next : Unit → Except Fault α} (hnext : Nameless (next ())) :
    Nameless (if guard then (throw cause : Except Fault Unit) >>= next else next ()) := by
  split
  · exact of_error h
  · exact hnext

theorem similaritySettings (s : SimilaritySettings) : Nameless s.validate := by
  unfold SimilaritySettings.validate
  refine (checkConcurrency _).bind fun _ => ?_
  refine (checkExclusive _ _ _ _).bind fun _ => (checkExclusive _ _ _ _).bind fun _ => ?_
  refine (checkBound _ _).bind fun _ => (checkBound _ _).bind fun _ => ?_
  refine (checkBound _ _).bind fun _ => (checkBound _ _).bind fun _ => ?_
  exact of_guard id (of_guard id (checkPositive _ _))

end Nameless

/-! ## Triangles -/

theorem Graph.triangleFinder?_alike (g : Graph) (nodes : IdMap) (maxDegree : Nat) :
    Alike (Fault.Renames f)
      (fun finder other => finder.Ready g maxDegree ∧ other.Ready (g.withNodes nodes) maxDegree)
      (g.triangleFinder? maxDegree) ((g.withNodes nodes).triangleFinder? maxDegree) := by
  unfold triangleFinder?
  rw [isUndirected_withNodes, parallel_withNodes]
  split
  · exact .error (.nameless (Fault.not_namesNode_of_reason (by simp)))
  · split
    · exact .error (.nameless (Fault.not_namesNode_of_reason (by simp)))
    · exact .ok ⟨⟨rfl, rfl, rfl, rfl, rfl⟩, ⟨rfl, rfl, rfl, rfl, rfl⟩⟩

/-- A trace counts the same. -/
theorem TriangleCounts.ofTrace_withNodes (hg : g.Built) (h : g.nodes.Renamed f nodes) {maxDegree : Nat}
    {finder other : TriangleFinder} (hfinder : finder.Ready g maxDegree)
    (hother : other.Ready (g.withNodes nodes) maxDegree) {workers : Nat} {trace : List Visit}
    (hworkers : ∀ v ∈ trace, v.worker < workers) :
    ofTrace other workers trace = ofTrace finder workers trace := by
  rw [ofTrace_eq (hg.withNodes h) hother hworkers, ofTrace_eq hg hfinder hworkers,
    Graph.nodeCount_withNodes h]
  rfl

theorem TriangleCounts.compute_alike (hg : g.Built) (h : g.nodes.Renamed f nodes)
    (settings : TriangleSettings) (stop : StopAfter) :
    Alike (Fault.Renames f) Eq (compute g settings stop) (compute (g.withNodes nodes) settings stop) := by
  unfold compute
  refine (Nameless.checkConcurrency _).alike.bind fun _ _ _ => ?_
  refine (Graph.triangleFinder?_alike g nodes settings.maxDegree).bind fun finder other hready => ?_
  refine (Nameless.pool _).alike.bind fun pool same hpool => ?_
  subst hpool
  rw [Graph.nodeCount_withNodes h]
  have hworkers := @Crew.worker_lt_of_settle ((Crew.forBatches pool g.nodeCount batchSize false
    (.new "TriangleCount" g.nodeCount 10)).begin stop) stop.task rfl
  rw [Crew.size_stages_settle, ← Crew.handOut] at hworkers
  have hcounts := ofTrace_withNodes hg h hready.1 hready.2 fun v hv =>
    (hworkers v hv).trans_eq (Crew.size_stages_new ..)
  dsimp only
  rw [hcounts]
  exact .ok rfl

/-! ## Similar nodes -/

/-- In both graphs the index finds the same. -/
theorem InverseIndex.build_alike (hg : g.Built) (h : g.nodes.Renamed f nodes) (pool : Pool)
    (stop : StopAfter) :
    Alike (Fault.Renames f) (fun found other => other.1.sourcesOf = found.1.sourcesOf ∧ other.2 = found.2)
      (build g pool stop) (build (g.withNodes nodes) pool stop) := by
  by_cases hundirected : g.isUndirected = true
  · rw [build, build, if_pos hundirected,
      if_pos (show (g.withNodes nodes).isUndirected = true from hundirected)]
    exact .ok ⟨rfl, rfl⟩
  · have hsame : build (g.withNodes nodes) pool stop = build g pool stop := by
      have htrace : ∀ concurrency workers trace,
          ofTrace (g.withNodes nodes) concurrency workers trace = ofTrace g concurrency workers trace := by
        intro concurrency workers trace
        rw [ofTrace, ofTrace, Graph.nodeCount_withNodes h]
        rfl
      rw [build, build, if_neg hundirected,
        if_neg (show ¬ (g.withNodes nodes).isUndirected = true from hundirected),
        Graph.nodeCount_withNodes h]
      simp only [htrace]
    obtain ⟨index, processed, stopped, hbuild, -⟩ := exists_build_sound hg pool stop
    rw [hsame, hbuild]
    exact .ok ⟨rfl, rfl⟩

namespace Similarity

/-- What is found at a node depends on what the index finds. -/
theorem compare_withNodes {index other : InverseIndex} (h : other.sourcesOf = index.sourcesOf) (g : Graph)
    (nodes : IdMap) (settings : SimilaritySettings) :
    compare (g.withNodes nodes) settings other = compare g settings index := by
  have hcandidates : candidates (g.withNodes nodes) other = candidates g index := by
    funext node
    unfold candidates
    rw [h]
    rfl
  funext node own
  unfold compare compared
  rw [hcandidates]
  rfl

theorem nameless_checkSimple (g : Graph) : Nameless (checkSimple g) := by
  unfold checkSimple
  split
  · exact .of_error (Fault.not_namesNode_of_reason (by simp))
  · exact .of_ok ()

theorem nameless_overall (settings : SimilaritySettings) :
    Nameless (settings.overall.mapM Selection.new?) := by
  cases settings.overall with
  | none => exact .of_ok none
  | some bound => exact (Nameless.selection bound).bind fun _ => .of_ok _

/-- Whoever breaks down over the nodes of a graph does so without naming one. -/
theorem nameless_outcome (g : Graph) (settings : SimilaritySettings) (stop : StopAfter) (workers : Nat)
    (source : Source) (stopped : Bool) (progress : Progress) :
    Nameless (((Crew.new workers source stopped progress).begin stop).settle
      (task g settings stop)).outcome := by
  have hreturns : (((Crew.new workers source stopped progress).begin stop).settle
      (task g settings stop)).Returns fun outcome => Nameless outcome.settle := by
    refine Crew.settle_induction (fun d worker hd => hd.step (.of_ok ()) ?_ ?_ worker)
      (Crew.returns_new workers source stopped progress)
    · intro before node cause hcause
      unfold task StopAfter.task at hcause
      split at hcause
      · split at hcause <;> exact absurd hcause (by simp)
      · exact absurd hcause (by simp)
    · exact fun _ _ _ _ => .of_error id
  intro cause herror
  obtain ⟨outcome, hnameless, hsettle⟩ := hreturns.exists_of_outcome_eq_error herror
  exact hnameless cause hsettle

theorem compute_alike (hg : g.Built) (h : g.nodes.Renamed f nodes) (settings : SimilaritySettings)
    (stop : StopAfter) :
    Alike (Fault.Renames f) Eq (compute g settings stop) (compute (g.withNodes nodes) settings stop) := by
  unfold compute
  refine (Nameless.similaritySettings _).alike.bind fun _ _ _ => ?_
  refine (nameless_checkSimple g).alike.bind fun _ _ _ => ?_
  refine (Nameless.pool _).alike.bind fun pool same hpool => ?_
  subst hpool
  refine (InverseIndex.build_alike hg h pool stop).bind fun found other hfound => ?_
  obtain ⟨index, processed, stopped⟩ := found
  obtain ⟨other, same⟩ := other
  obtain ⟨hindex, rfl⟩ := hfound
  rw [Graph.nodeCount_withNodes h]
  refine (nameless_outcome g settings (stop.later processed) _ _ stopped _).alike.bind fun _ _ _ => ?_
  refine (nameless_overall settings).alike.bind fun _ _ _ => ?_
  have hsame : ∀ trace terminated,
      ofTrace (g.withNodes nodes) settings other pool.concurrency trace terminated =
        ofTrace g settings index pool.concurrency trace terminated := fun trace terminated => by
    simp only [ofTrace, compare_withNodes hindex]
  exact .ok (hsame _ _).symm

end Similarity

/-! ## Betweenness -/

namespace Betweenness

/-- The node whose weights are at fault has its new name. -/
theorem checkWeights_alike (h : g.nodes.Renamed f nodes) :
    Alike (Fault.Renames f) Eq (checkWeights g) (checkWeights (g.withNodes nodes)) := by
  unfold checkWeights
  simp only [Graph.nodeList_withNodes h, Graph.isWeighted_withNodes, Graph.weighted_withNodes]
  split
  · exact .error (.nameless (Fault.not_namesNode_of_reason (by simp)))
  · cases hfind : g.nodeList.find? fun node => !(g.weighted node 1).all fun r => isUsableWeight r.2 with
    | none => exact .ok rfl
    | some node =>
      have hnode := List.mem_range.mp (List.mem_of_find?_eq_some hfind)
      have hrenames := Fault.Renames.unusableWeight (f := f) (g.external node)
      rw [← Graph.external_withNodes h hnode] at hrenames
      exact .error hrenames

theorem compute_alike (h : g.nodes.Renamed f nodes) (settings : BetweennessSettings) (stop : StopAfter) :
    Alike (Fault.Renames f) Eq (compute g settings stop) (compute (g.withNodes nodes) settings stop) := by
  unfold compute
  have hvalid : Nameless settings.validate :=
    (Nameless.checkConcurrency _).bind fun _ => Nameless.checkPositive _ _
  refine hvalid.alike.bind fun _ _ _ => ?_
  refine (Nameless.pool _).alike.bind fun pool same hpool => ?_
  subst hpool
  have hmeasure : measureOf (g.withNodes nodes) settings.weighted = measureOf g settings.weighted := rfl
  simp only [Graph.nodeCount_withNodes h, Graph.isUndirected_withNodes, hmeasure]
  split
  · exact (checkWeights_alike h).bind fun _ _ _ => .ok rfl
  · exact .ok rfl

end Betweenness

/-! ## Components and clusters -/

theorem Components.compute_alike (h : g.nodes.Renamed f nodes) (settings : ComponentSettings)
    (stop : StopAfter) :
    Alike (Fault.Renames f) Eq (compute g settings stop) (compute (g.withNodes nodes) settings stop) := by
  unfold compute
  refine (Nameless.checkConcurrency _).alike.bind fun _ _ _ => ?_
  refine (Nameless.pool _).alike.bind fun pool same hpool => ?_
  subst hpool
  have hsets : ∀ trace, setsOfTrace (g.withNodes nodes) trace = setsOfTrace g trace := fun trace => by
    rw [setsOfTrace, setsOfTrace, Graph.nodeCount_withNodes h]
    rfl
  rw [Graph.nodeCount_withNodes h]
  exact .ok (by rw [hsets])

theorem Components.clusters_withNodes (g : Graph) (nodes : IdMap) (c : Components) (minSize : Nat) :
    c.clusters (g.withNodes nodes) minSize = c.clusters g minSize := rfl

end PackedGraph
