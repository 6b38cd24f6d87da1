import PackedGraph.Analysis.Similarity
import PackedGraph.Proofs.Graph.Built
import PackedGraph.Proofs.Workers.Batches

/-!
# The inverse index

An index inverts a graph if it finds exactly the nodes that have a given target.  In an undirected graph
the targets of a node do; otherwise the relationships of all nodes are taken in once more, to be read
backwards, and what is built finds them in whatever order the nodes were handed out.

Main statements: `InverseIndex.inverts_targets` and `InverseIndex.exists_ofTrace`.
-/

namespace PackedGraph

variable {g : Graph} {workers concurrency : Nat} {trace : List Visit}

namespace InverseIndex

/-- Whether the sources found for a target are those that have it. -/
def Inverts (index : InverseIndex) (g : Graph) : Prop :=
  ∀ source target, target ∈ g.targets source →
    ∀ other, other ∈ index.sourcesOf target ↔ target ∈ g.targets other

/-- Whether the sources found for a target do have it. -/
def Sound (index : InverseIndex) (g : Graph) : Prop :=
  ∀ source target, target ∈ g.targets source → ∀ other ∈ index.sourcesOf target, target ∈ g.targets other

/-- In an undirected graph a node is a target of its targets. -/
theorem inverts_targets (hg : g.Built) (hundirected : g.isUndirected = true) : (targets g).Inverts g :=
  fun _ _ _ _ => hg.mem_comm hundirected

/-! ## Relationships taken in once more -/

/-- The calls that take in the relationships of the visited nodes. -/
def calls (g : Graph) (trace : List Visit) : List Call :=
  trace.flatMap fun v => (g.targets v.node).map fun target => .addDenseTo v.worker v.node target 1

theorem foldlM_takeIn (g : Graph) (intake : Intake) (trace : List Visit) :
    trace.foldlM (takeIn g) intake = intake.callAll (calls g trace) := by
  induction trace generalizing intake with
  | nil => rfl
  | cons v trace ih =>
    rw [List.foldlM_cons, calls, List.flatMap_cons, Intake.callAll, List.foldlM_append]
    exact bind_congr fun next => ih next

theorem namesBatch_calls (hworkers : ∀ v ∈ trace, v.worker < workers) :
    ∀ call ∈ calls g trace, call.NamesBatch workers := by
  intro call hcall
  obtain ⟨v, hv, hmem⟩ := List.mem_flatMap.mp hcall
  obtain ⟨target, -, rfl⟩ := List.mem_map.mp hmem
  intro batch hbatch
  obtain rfl := Option.some.inj hbatch
  exact hworkers v hv

/-- A call offers the relationship that it takes in. -/
theorem offer_call (hg : g.Built) {s : RelationshipSettings} {worker node target : Nat}
    (htarget : target ∈ g.targets node) :
    (Call.addDenseTo worker node target 1).offer? (.identity g.nodeCount) s = some ⟨node, target, 1⟩ := by
  rw [Call.offer?]
  exact if_pos ⟨hg.source_lt htarget, hg.target_lt htarget⟩

/-- Reading backwards, a call stores the pair of its target and its node. -/
theorem produces_settings (source target : Nat) (offer : StoredRelationship) :
    (settings concurrency).produces target source offer = true ↔
      offer.source = source ∧ offer.target = target := by
  simp [RelationshipSettings.produces, settings, and_comm]

/-- A pair is stored just in case its node is visited and has the target. -/
theorem storedCount_calls (hg : g.Built) (source target : Nat) :
    0 < Graph.storedCount (.identity g.nodeCount) (settings concurrency) (calls g trace) target source ↔
      source ∈ trace.map Visit.node ∧ target ∈ g.targets source := by
  have hpositive : ∀ produced : Nat, 0 < (if 0 < produced then 1 else 0) ↔ 0 < produced := by
    intro produced
    split <;> simp_all
  rw [Graph.storedCount, if_neg (by simp [settings]), hpositive, List.countP_pos_iff]
  constructor
  · rintro ⟨offer, hoffer, hproduces⟩
    obtain ⟨call, hcall, hoffered⟩ := List.mem_filterMap.mp hoffer
    obtain ⟨v, hv, hmem⟩ := List.mem_flatMap.mp hcall
    obtain ⟨other, hother, rfl⟩ := List.mem_map.mp hmem
    rw [offer_call hg hother] at hoffered
    obtain rfl := Option.some.inj hoffered
    obtain ⟨rfl, rfl⟩ := (produces_settings source target _).mp hproduces
    exact ⟨List.mem_map_of_mem hv, hother⟩
  · rintro ⟨hvisited, htarget⟩
    obtain ⟨v, hv, rfl⟩ := List.mem_map.mp hvisited
    refine ⟨⟨v.node, target, 1⟩, List.mem_filterMap.mpr ⟨.addDenseTo v.worker v.node target 1, ?_, ?_⟩, ?_⟩
    · exact List.mem_flatMap.mpr ⟨v, hv, List.mem_map.mpr ⟨target, htarget, rfl⟩⟩
    · exact offer_call hg htarget
    · exact (produces_settings _ _ _).mpr ⟨rfl, rfl⟩

/-- What has been built of the calls is the index. -/
theorem ofTrace_of_build (hg : g.Built) {r : Relationships}
    (h : ((Intake.new (.identity g.nodeCount) (settings concurrency) workers).serveAll
      (calls g trace)).close.build = .ok r) :
    ofTrace g concurrency workers trace = .ok (.sources r.adjacency) := by
  have hoffers : ∀ call ∈ calls g trace, ∃ offer,
      call.offer? (.identity g.nodeCount) (settings concurrency) = some offer := by
    intro call hcall
    obtain ⟨v, -, hmem⟩ := List.mem_flatMap.mp hcall
    obtain ⟨target, htarget, rfl⟩ := List.mem_map.mp hmem
    exact ⟨_, offer_call hg htarget⟩
  rw [ofTrace, foldlM_takeIn, Intake.callAll_new fun call hcall => .inl (hoffers call hcall)]
  simp only [bind, Except.bind, h]
  rfl

/-- However many nodes there are: where none has a target, nothing is taken in, and something is built of
it. -/
theorem exists_build_of_no_targets (hnone : ∀ node, g.targets node = []) (hconcurrency : 1 ≤ concurrency) :
    ∃ r, ((Intake.new (.identity g.nodeCount) (settings concurrency) workers).serveAll
      (calls g trace)).close.build = .ok r := by
  have hempty : calls g trace = [] := by simp [calls, hnone]
  have hledger := Intake.keepsLedger_close (.identity g.nodeCount) (settings concurrency) workers (calls g trace)
  refine hledger.exists_build (fun r hr => ?_) hconcurrency (by simp [settings])
  have hnamed : ∀ call ∈ calls g trace, call.NamesBatch workers := by simp [hempty]
  rw [(Ledger.perm_arrivals _ _ hnamed).mem_iff, hempty] at hr
  exact absurd hr List.not_mem_nil

/-- The index of visited nodes finds those of them that have a target. -/
theorem exists_ofTrace_of_visits (hg : g.Built) (hconcurrency : 1 ≤ concurrency)
    (hworkers : ∀ v ∈ trace, v.worker < workers) :
    ∃ index, ofTrace g concurrency workers trace = .ok index ∧
      ∀ source target, target ∈ g.targets source → ∀ other, other ∈ index.sourcesOf target ↔
        other ∈ trace.map Visit.node ∧ target ∈ g.targets other := by
  by_cases hwords : g.nodeCount ≤ largestWord
  · have hnodes := IdMap.valid_identity hwords
    have hcalls := namesBatch_calls (g := g) hworkers
    obtain ⟨r, hbuild⟩ := @Intake.exists_build_of_calls (.identity g.nodeCount) (settings concurrency)
      hnodes hconcurrency (by simp [settings]) workers _ hcalls
    refine ⟨_, ofTrace_of_build hg hbuild, fun source target htarget other => ?_⟩
    rw [← @storedCount_calls g concurrency trace hg,
      ← Graph.count_targets_of_build hnodes hcalls hbuild (hg.target_lt htarget), List.count_pos_iff]
    rfl
  · -- there are no targets, so nothing has to be found
    have hnone : ∀ node, g.targets node = [] := fun node =>
      List.eq_nil_iff_forall_not_mem.mpr fun target htarget => hwords (hg.nodeCount_le htarget)
    obtain ⟨r, hbuild⟩ := exists_build_of_no_targets hnone hconcurrency
    refine ⟨_, ofTrace_of_build hg hbuild, fun source target htarget => ?_⟩
    rw [hnone] at htarget
    exact absurd htarget List.not_mem_nil

/-- The index of a graph of which all nodes have been handed out inverts it. -/
theorem exists_ofTrace (hg : g.Built) (hconcurrency : 1 ≤ concurrency)
    (htrace : HandsOut g.nodeCount workers trace) :
    ∃ index, ofTrace g concurrency workers trace = .ok index ∧ index.Inverts g := by
  obtain ⟨index, hindex, hfinds⟩ := exists_ofTrace_of_visits hg hconcurrency htrace.worker_lt
  refine ⟨index, hindex, fun source target htarget other => ?_⟩
  rw [hfinds source target htarget other, and_iff_right_iff_imp]
  exact fun hother => htrace.nodes.mem_iff.mpr (List.mem_range.mpr (hg.source_lt hother))

/-- An undirected graph is its own index, and any other has one, whatever the trace. -/
theorem exists_inverts (hg : g.Built) (hconcurrency : 1 ≤ concurrency)
    (htrace : HandsOut g.nodeCount workers trace) :
    ∃ index : InverseIndex, (if g.isUndirected then .ok (.targets g)
      else ofTrace g concurrency workers trace) = .ok index ∧ index.Inverts g := by
  by_cases hundirected : g.isUndirected = true
  · exact ⟨_, if_pos hundirected, inverts_targets hg hundirected⟩
  · rw [if_neg hundirected]
    exact exists_ofTrace hg hconcurrency htrace

/-- Whichever nodes are visited for it, there is an index, and it is sound. -/
theorem exists_sound (hg : g.Built) (hconcurrency : 1 ≤ concurrency) (hworkers : ∀ v ∈ trace, v.worker < workers) :
    ∃ index : InverseIndex, (if g.isUndirected then .ok (.targets g)
      else ofTrace g concurrency workers trace) = .ok index ∧ index.Sound g := by
  by_cases hundirected : g.isUndirected = true
  · exact ⟨_, if_pos hundirected, fun _ _ _ _ hother => (hg.mem_comm hundirected).mp hother⟩
  · rw [if_neg hundirected]
    obtain ⟨index, hindex, hfinds⟩ := exists_ofTrace_of_visits hg hconcurrency hworkers
    exact ⟨index, hindex, fun source target htarget other hother =>
      ((hfinds source target htarget other).mp hother).2⟩

/-- The index of a run that nobody stops inverts the graph. -/
theorem exists_build (hg : g.Built) (pool : Pool) :
    ∃ index processed, build g pool none = .ok (index, processed, false) ∧ index.Inverts g := by
  by_cases hundirected : g.isUndirected = true
  · refine ⟨.targets g, 0, ?_, inverts_targets hg hundirected⟩
    rw [build, if_pos hundirected]
    rfl
  · obtain ⟨htrace, hstopped⟩ := Crew.handsOut_trace pool g.nodeCount pool.concurrency
      (.new "NodeSimilarity inverse index" g.nodeCount 10)
    have hsize : ((Crew.forPartitions pool (rangePartition g.nodeCount pool.concurrency) false
        (.new "NodeSimilarity inverse index" g.nodeCount 10)).handOut none).stages.size =
        max (min pool.concurrency (rangePartition g.nodeCount pool.concurrency).length) 1 :=
      (Crew.outcome_settle (fun _ _ => rfl) _ _ _ _).2
    obtain ⟨index, hindex, hinverts⟩ := exists_ofTrace hg pool.positive htrace
    rw [Crew.trace] at hindex
    rw [build, if_neg hundirected]
    simp only [hsize, hindex, hstopped]
    exact ⟨index, _, rfl, hinverts⟩

/-- Whenever a run is stopped, its index is sound. -/
theorem exists_build_sound (hg : g.Built) (pool : Pool) (stop : StopAfter) :
    ∃ index processed stopped, build g pool stop = .ok (index, processed, stopped) ∧ index.Sound g := by
  by_cases hundirected : g.isUndirected = true
  · refine ⟨.targets g, 0, false, ?_, fun _ _ _ _ hother => (hg.mem_comm hundirected).mp hother⟩
    rw [build, if_pos hundirected]
    rfl
  · rw [build, if_neg hundirected]
    have hworkers := @Crew.worker_lt_of_settle ((Crew.forPartitions pool
      (rangePartition g.nodeCount pool.concurrency) false
      (.new "NodeSimilarity inverse index" g.nodeCount 10)).begin stop) stop.task rfl
    rw [← Crew.handOut] at hworkers
    obtain ⟨index, hindex, hfinds⟩ := exists_ofTrace_of_visits hg pool.positive hworkers
    refine ⟨index, _, _, by simp only [hindex]; rfl, fun source target htarget other hother => ?_⟩
    exact ((hfinds source target htarget other).mp hother).2

end InverseIndex

end PackedGraph
