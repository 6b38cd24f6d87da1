import Mathlib.Data.List.TakeDrop
import PackedGraph.EdgeList.Loading
import PackedGraph.Proofs.Graph.Built
import PackedGraph.Proofs.Graph.Numbering

/-!
# Loading by chunks is loading at once

All chunks go through one batch, and a batch hands over in the order in which it was given: so when and
how often it hands over makes no difference to what lies in the buckets in the end.  The nodes are the
endpoints in ascending order, whether they are collected or sorted.

Main statement: `EdgeList.load_iff_ofEdges`.
-/

namespace PackedGraph

/-! ## One batch -/

namespace Ledger

/-- Of one batch nothing is lost and nothing changes its place. -/
theorem closed_note_of_one_batch (nodes : IdMap) (s : RelationshipSettings) {l : Ledger} {call : Call}
    (hlength : l.held.length = 1) (hcall : call.batch? = some 0) :
    (l.note nodes s call).held.length = 1 ∧
      (l.note nodes s call).closed = l.closed ++ (offers nodes s [call]).flatMap s.fanOut := by
  refine ⟨(length_held_note nodes s l call).trans hlength, ?_⟩
  obtain ⟨held, hheld⟩ := List.length_eq_one_iff.mp hlength
  have hrelease : ∀ (arrived held : List StoredRelationship),
      (Ledger.release ⟨arrived, [held]⟩ 0).closed = arrived ++ held := fun arrived held => by
    simp [release, closed]
  obtain ⟨arrived, _⟩ := l
  obtain rfl : _ = [held] := hheld
  rw [note.eq_def, offers]
  cases hoffer : call.offer? nodes s with
  | some offer =>
    rw [List.filterMap_cons_some hoffer, List.filterMap_nil, List.flatMap_singleton, hcall]
    change Ledger.closed (if _ then Ledger.release ⟨arrived, [held ++ s.fanOut offer]⟩ 0
      else ⟨arrived, [held ++ s.fanOut offer]⟩) = _
    split
    · rw [hrelease, closed, List.flatten_singleton, List.append_assoc]
    · simp [closed]
  | none =>
    rw [List.filterMap_cons_none hoffer, List.filterMap_nil, List.flatMap_nil, List.append_nil]
    cases call with
    | flush batch =>
      obtain rfl := Option.some.inj hcall
      rw [hrelease, closed, List.flatten_singleton]
    | add | addTo | addDenseTo => rfl

/-- What arrives through one batch arrives in the order of the calls, whenever it is handed over. -/
theorem arrivals_of_one_batch (nodes : IdMap) (s : RelationshipSettings) {calls : List Call}
    (h : ∀ call ∈ calls, call.batch? = some 0) :
    arrivals nodes s 1 calls = (offers nodes s calls).flatMap s.fanOut := by
  suffices hall : (calls.foldl (note nodes s) (.opened 1)).held.length = 1 ∧
      (calls.foldl (note nodes s) (.opened 1)).closed = (offers nodes s calls).flatMap s.fanOut from hall.2
  induction calls using List.reverseRecOn with
  | nil => exact ⟨rfl, rfl⟩
  | append_singleton calls call ih =>
    obtain ⟨hlength, hclosed⟩ := ih fun other hother => h other (List.mem_append_left _ hother)
    obtain ⟨hnext, hnote⟩ := closed_note_of_one_batch nodes s hlength
      (h call (List.mem_append_right _ (List.mem_singleton_self call)))
    rw [List.foldl_append, List.foldl_cons, List.foldl_nil]
    refine ⟨hnext, ?_⟩
    rw [hnote, hclosed, offers, offers, offers, List.filterMap_append, List.flatMap_append]

end Ledger

/-- The list determines what lies in the buckets. -/
theorem Distributes.unique {bucketOf : Nat → Nat} {count : Nat}
    {buckets others : Array (Array StoredRelationship)} {relationships : List StoredRelationship}
    (h : Distributes bucketOf count buckets relationships)
    (hothers : Distributes bucketOf count others relationships) : buckets = others := by
  have hsize : buckets.size = others.size := h.size_eq.trans hothers.size_eq.symm
  apply Array.ext hsize
  intro bucket hbucket hother
  have hsame := (h.toList_eq bucket (h.size_eq ▸ hbucket)).trans
    (hothers.toList_eq bucket (h.size_eq ▸ hbucket)).symm
  simpa [Array.getD_eq_getD_getElem?, hbucket, hother] using hsame

namespace Intake

/-- Intakes into which the same has arrived in the same order are the same once they are closed. -/
theorem KeepsLedger.close_eq {nodes : IdMap} {s : RelationshipSettings} {t u : Intake} {l m : Ledger}
    (ht : KeepsLedger nodes s t l) (hu : KeepsLedger nodes s u m) (hclosed : l.closed = m.closed) :
    t.close = u.close := by
  have hleft := ht.close
  have hright := hu.close
  rw [hclosed] at hleft
  have hpartitions : t.close.partitions = u.close.partitions :=
    hleft.partitions_eq.trans hright.partitions_eq.symm
  have hbuckets : t.close.buckets = u.close.buckets := by
    have hdistributes := hleft.buckets
    rw [show t.close.bucketOf = u.close.bucketOf from
      funext fun node => by rw [bucketOf, bucketOf, hpartitions], hpartitions] at hdistributes
    exact hdistributes.unique hright.buckets
  have hnodes := hleft.nodes_eq.trans hright.nodes_eq.symm
  have hsettings := hleft.settings_eq.trans hright.settings_eq.symm
  have hbatches : t.close.batches = u.close.batches := rfl
  generalize t.close = t at *
  generalize u.close = u at *
  cases t
  cases u
  simp_all

end Intake

/-! ## One partition after the other covers all nodes -/

theorem PackedPartition.size_degrees_packNodes {nodes : IdMap} {aggregation : Aggregation}
    {ids : List Nat} {relationships : List StoredRelationship} {p packed : PackedPartition}
    (h : packNodes nodes aggregation ids relationships p = .ok packed) :
    packed.degrees.size = p.degrees.size + ids.length := by
  induction ids generalizing relationships p with
  | nil =>
    obtain rfl := Except.ok.inj h
    rfl
  | cons node ids ih =>
    rw [packNodes] at h
    cases hmerge : aggregation.merge
        ((relationships.span (·.source == node)).1.map fun r => (r.target, r.weight)) with
    | error target =>
      simp only [hmerge] at h
      exact absurd h (by simp)
    | ok merged =>
      simp only [hmerge] at h
      rw [ih h, push, Array.size_push, List.length_cons]
      omega

/-- What is built covers the nodes of the intake. -/
theorem Intake.nodeCount_of_build {t : Intake} {r : Relationships} (h : t.build = .ok r) :
    r.adjacency.nodeCount = (t.partitions.map Partition.count).sum := by
  obtain ⟨packed, hpacked, rfl⟩ := (build_eq_ok_iff (one_le_concurrency_of_build h) r).mp h
  have hsizes : packed.map (fun p => p.degrees.size) = t.partitions.map Partition.count := by
    refine List.ext_getElem ?_ fun worker hleft hright => ?_
    · rw [List.length_map, List.length_map, ← hpacked.length_eq, List.length_range]
    · rw [List.length_map] at hleft hright
      have htask := hpacked.get (by rwa [List.length_range]) hleft
      rw [List.get_eq_getElem, List.getElem_range, packTask_eq_value_iff hright] at htask
      have hsize := PackedPartition.size_degrees_packNodes htask
      rw [List.getElem_map, List.getElem_map]
      rw [List.get_eq_getElem] at hsize
      rw [hsize, Partition.nodes, List.length_map, List.length_range]
      exact Nat.zero_add _
  have happend : ∀ all : PackedNodes, (packed.foldl PackedNodes.append all).degrees.size =
      all.degrees.size + (packed.map fun p => p.degrees.size).sum := by
    clear hpacked hsizes h
    induction packed with
    | nil => exact fun _ => rfl
    | cons p packed ih =>
      intro all
      rw [List.foldl_cons, ih, PackedNodes.append, Array.size_append, List.map_cons, List.sum_cons,
        Nat.add_assoc]
  change (packed.foldl PackedNodes.append .empty).degrees.size = _
  rw [happend, hsizes]
  exact Nat.zero_add _

/-- The partitions of an intake cover its nodes. -/
theorem sum_count_rangePartition (nodeCount concurrency : Nat) :
    ((rangePartition nodeCount concurrency).map Partition.count).sum = nodeCount := by
  have hlength := congrArg List.length (flatMap_nodes_rangePartition nodeCount concurrency)
  rw [List.length_flatMap, List.length_range] at hlength
  refine Eq.trans ?_ hlength
  congr 1
  refine List.map_congr_left fun partition _ => ?_
  rw [Partition.nodes, List.length_map, List.length_range]

/-! ## Edges -/

/-- All endpoints, in order and repeated. -/
def endpoints (edges : List Edge) : List UInt64 := edges.flatMap fun e => [e.source, e.target]

namespace EdgeList

/-- The call by which an edge is taken in. -/
def callOf (e : Edge) : Call := .addTo 0 e.source e.target (some e.weight)

/-- The calls by which a chunk is taken in. -/
def callsOf (chunk : List Edge) : List Call := chunk.map callOf ++ [.flush 0]

theorem nodes_eq (list : EdgeList) : list.nodes = IdMap.ofIds (endpoints list.edges) := by
  rw [← IdCollector.build_eq_ofIds, endpoints, List.foldl_flatMap]
  rfl

/-- The first so many chunks are so many edges. -/
theorem flatten_chunks_take (edges : List Edge) (size count : Nat) :
    ((List.range count).map fun i => (edges.toArray.extract (i * size)
        (Partition.mk (i * size) (min size (edges.length - i * size))).stop).toList).flatten =
      edges.take (count * size) := by
  induction count with
  | zero => simp
  | succ count ih =>
    rw [List.range_succ, List.map_append, List.flatten_append, ih, List.map_singleton,
      List.flatten_singleton, Nat.succ_mul, List.take_add]
    congr 1
    rw [Array.toList_extract, Partition.stop, List.extract_eq_take_drop, Nat.add_sub_cancel_left,
      ← List.length_drop, ← List.take_take, List.take_length]

/-- The chunks are the edges, in order. -/
theorem flatten_chunks (list : EdgeList) (size : Nat) : (list.chunks size).flatten = list.edges := by
  have hcover := @le_ceilDiv_mul list.edges.length _ (show 0 < max size 1 by omega)
  rw [chunks, tiles, List.map_map, List.size_toArray]
  exact (flatten_chunks_take list.edges (max size 1) _).trans (List.take_of_length_le hcover)

/-- Taking in chunks is answering their calls. -/
theorem foldlM_takeIn (intake : Intake) (chunks : List (List Edge)) :
    chunks.foldlM takeIn intake = intake.callAll (chunks.flatMap callsOf) := by
  induction chunks generalizing intake with
  | nil => rfl
  | cons chunk chunks ih =>
    have hchunk : takeIn intake chunk = intake.callAll (callsOf chunk) := by
      rw [callsOf, Intake.callAll, List.foldlM_append]
      rfl
    rw [List.foldlM_cons, List.flatMap_cons, Intake.callAll, List.foldlM_append, hchunk]
    exact bind_congr fun next => ih next

variable {nodes : IdMap} {s : RelationshipSettings}

/-- Handing over in between changes nothing about what is offered. -/
theorem offers_flatMap_callsOf (chunks : List (List Edge)) :
    offers nodes s (chunks.flatMap callsOf) = offers nodes s (chunks.flatten.map callOf) := by
  induction chunks with
  | nil => rfl
  | cons chunk chunks ih =>
    rw [offers] at ih
    rw [offers, List.flatMap_cons, List.filterMap_append, ih, callsOf, List.filterMap_append,
      List.flatten_cons, offers, List.map_append, offers, List.filterMap_append]
    simp [Call.offer?]

theorem mem_callsOf {chunks : List (List Edge)} {call : Call} (h : call ∈ chunks.flatMap callsOf) :
    (∃ e ∈ chunks.flatten, call = callOf e) ∨ call = .flush 0 := by
  obtain ⟨chunk, hchunk, hcall⟩ := List.mem_flatMap.mp h
  rw [callsOf, List.mem_append, List.mem_map, List.mem_singleton] at hcall
  rcases hcall with ⟨e, he, rfl⟩ | rfl
  · exact .inl ⟨e, List.mem_flatten.mpr ⟨chunk, hchunk, he⟩, rfl⟩
  · exact .inr rfl

/-- An edge between nodes is offered. -/
theorem exists_offer {edges : List Edge} {e : Edge} (he : e ∈ edges) :
    ∃ offer, (callOf e).offer? (IdMap.ofIds (endpoints edges)) s = some offer := by
  have hmem : ∀ id ∈ [e.source, e.target], id ∈ endpoints edges := fun id hid =>
    List.mem_flatMap.mpr ⟨e, he, hid⟩
  obtain ⟨source, -, hsource⟩ := IdMap.exists_toDense?_ofIds (hmem e.source (by simp))
  obtain ⟨target, -, htarget⟩ := IdMap.exists_toDense?_ofIds (hmem e.target (by simp))
  rw [callOf, Call.offer?, hsource, htarget]
  exact ⟨_, rfl⟩

/-- The edges of a list, taken in one by one. -/
def intakeOf (edges : List Edge) (s : RelationshipSettings) : Intake :=
  (Intake.new (IdMap.ofIds (endpoints edges)) s 1).serveAll (edges.map callOf)

theorem keepsLedger_intakeOf (edges : List Edge) (s : RelationshipSettings) :
    Intake.KeepsLedger (IdMap.ofIds (endpoints edges)) s (intakeOf edges s).close
      ⟨(offers (IdMap.ofIds (endpoints edges)) s (edges.map callOf)).flatMap s.fanOut, []⟩ := by
  rw [← Ledger.arrivals_of_one_batch]
  · exact Intake.keepsLedger_close _ _ _ _
  · intro call hcall
    obtain ⟨e, -, rfl⟩ := List.mem_map.mp hcall
    rfl

/-- What is built of the edges is a graph. -/
theorem assemble?_build {edges : List Edge} {r : Relationships}
    (h : (intakeOf edges s).close.build = .ok r) :
    Graph.assemble? (IdMap.ofIds (endpoints edges)) [⟨Graph.onlyType, r⟩] [] =
      .ok (Graph.ofBuild (IdMap.ofIds (endpoints edges)) r) := by
  apply Graph.assemble?_ofBuild
  rw [Intake.nodeCount_of_build h, (keepsLedger_intakeOf edges s).partitions_eq, sum_count_rangePartition]

/-- At once: all there is to do is to build. -/
theorem ofEdges?_eq (edges : List Edge) (s : RelationshipSettings) :
    Graph.ofEdges? edges s =
      (intakeOf edges s).close.build.map (Graph.ofBuild (IdMap.ofIds (endpoints edges))) := by
  have hall : (Intake.new (IdMap.ofIds (endpoints edges)) s 1).callAll (edges.map callOf) =
      .ok (intakeOf edges s) := by
    refine Intake.callAll_new fun call hcall => .inl ?_
    obtain ⟨e, he, rfl⟩ := List.mem_map.mp hcall
    exact exists_offer he
  unfold Graph.ofEdges?
  change ((Intake.new (IdMap.ofIds (endpoints edges)) s 1).callAll (edges.map callOf)).bind _ = _
  rw [hall]
  cases hbuild : (intakeOf edges s).close.build with
  | error cause => simp [bind, Except.bind, Except.map, hbuild]
  | ok r =>
    simp only [bind, Except.bind, Except.map, hbuild]
    exact assemble?_build hbuild

/-- By chunks: the same is built. -/
theorem load_eq (list : EdgeList) (s : RelationshipSettings) (chunkSize : Nat) :
    list.load s chunkSize = inContext "building relationships"
      (orFail ((intakeOf list.edges s).close.build.map
        (Graph.ofBuild (IdMap.ofIds (endpoints list.edges))))) := by
  have hanswered : ∀ call ∈ (list.chunks chunkSize).flatMap callsOf,
      (∃ offer, call.offer? (IdMap.ofIds (endpoints list.edges)) s = some offer) ∨
        ∃ batch, call = .flush batch := by
    intro call hcall
    rcases mem_callsOf hcall with ⟨e, he, rfl⟩ | rfl
    · rw [flatten_chunks] at he
      exact .inl (exists_offer he)
    · exact .inr ⟨0, rfl⟩
  have hclose : ((Intake.new (IdMap.ofIds (endpoints list.edges)) s 1).serveAll
      ((list.chunks chunkSize).flatMap callsOf)).close = (intakeOf list.edges s).close := by
    refine (Intake.keepsLedger_serveAll _ s 1 _).close_eq (Intake.keepsLedger_serveAll _ s 1 _) ?_
    change arrivals _ s 1 _ = arrivals _ s 1 _
    rw [Ledger.arrivals_of_one_batch, Ledger.arrivals_of_one_batch, offers_flatMap_callsOf, flatten_chunks]
    · intro call hcall
      obtain ⟨e, -, rfl⟩ := List.mem_map.mp hcall
      rfl
    · intro call hcall
      rcases mem_callsOf hcall with ⟨e, -, rfl⟩ | rfl <;> rfl
  rw [load, foldlM_takeIn, nodes_eq, Intake.callAll_new hanswered]
  simp only [orFail, bind, Except.bind, hclose]
  cases hbuild : (intakeOf list.edges s).close.build with
  | error cause => rfl
  | ok r =>
    simp only [inContext, assemble?_build hbuild, Except.map]

/-- The calls all go to the one batch there is. -/
theorem namesBatch_callOf {edges : List Edge} : ∀ call ∈ edges.map callOf, call.NamesBatch 1 := by
  intro call hcall batch hbatch
  obtain ⟨e, -, rfl⟩ := List.mem_map.mp hcall
  obtain rfl := Option.some.inj hbatch
  exact Nat.zero_lt_one

theorem length_endpoints (edges : List Edge) : (endpoints edges).length = 2 * edges.length := by
  rw [endpoints, List.length_flatMap]
  simp [Nat.mul_comm]

/-- As long as the endpoints can be counted, they are valid nodes. -/
theorem valid_endpoints {list : EdgeList} (h : 2 * list.size ≤ largestWord) :
    (IdMap.ofIds (endpoints list.edges)).Valid :=
  IdMap.valid_ofIds ((length_endpoints list.edges).trans_le h)

/-- What has been loaded has been built. -/
theorem exists_build_of_load {list : EdgeList} {s : RelationshipSettings} {chunkSize : Nat} {g : Graph}
    (h : list.load s chunkSize = .ok g) : ∃ r, (intakeOf list.edges s).close.build = .ok r ∧
      g = Graph.ofBuild (IdMap.ofIds (endpoints list.edges)) r := by
  rw [load_eq] at h
  cases hbuild : (intakeOf list.edges s).close.build with
  | error cause =>
    rw [hbuild] at h
    exact absurd h (by simp [Except.map, orFail, inContext])
  | ok r =>
    rw [hbuild] at h
    exact ⟨r, rfl, (Except.ok.inj h).symm⟩

/-- A graph is loaded unless parallel relationships are to be refused. -/
theorem exists_load {list : EdgeList} (hfits : 2 * list.size ≤ largestWord) {s : RelationshipSettings}
    (hconcurrency : 1 ≤ s.concurrency) (haggregation : s.aggregation ≠ .reject) (chunkSize : Nat) :
    ∃ g, list.load s chunkSize = .ok g := by
  obtain ⟨r, hbuild⟩ := Intake.exists_build_of_calls (valid_endpoints hfits) hconcurrency haggregation
    (@namesBatch_callOf list.edges)
  refine ⟨Graph.ofBuild (IdMap.ofIds (endpoints list.edges)) r, ?_⟩
  rw [load_eq, intakeOf, hbuild]
  rfl

/-- **Loading by chunks is loading at once.**  Whatever the list, the settings and the length of the
chunks: the graph is the one that is made of all edges at once, down to the bytes of its pages, and what
keeps the one from being made keeps the other, which says where it happened. -/
theorem load_iff_ofEdges (list : EdgeList) (s : RelationshipSettings) (chunkSize : Nat) :
    (∀ g, list.load s chunkSize = .ok g ↔ Graph.ofEdges? list.edges s = .ok g) ∧
      ∀ cause, list.load s chunkSize = .error (.within "building relationships" (.fault cause)) ↔
        Graph.ofEdges? list.edges s = .error cause := by
  rw [load_eq, ofEdges?_eq]
  cases (intakeOf list.edges s).close.build.map (Graph.ofBuild (IdMap.ofIds (endpoints list.edges))) with
  | error cause => simp [orFail, inContext]
  | ok g => simp [orFail, inContext]

end EdgeList

end PackedGraph
