import Mathlib.Algebra.BigOperators.Group.List.Basic
import PackedGraph.Graph.Basic
import PackedGraph.Proofs.Ingest.Build

/-!
# Graphs that can be built

`Graph.Built` says of a graph that it was put together from relationship types that calls on intakes and
their batches have built.  Everything an analysis relies on follows from that and is stated here in terms
of `Graph.targets`: targets are dense ids in ascending order, a graph without parallel relationships has
no target twice, relationships that are stored in both directions make the targets symmetric, and a
cursor over the types of the graph, wherever it stood before, shows the targets of the node it is bound
to.

Main statements: `Graph.Built.shows_rebind`, `Graph.Built.target_lt`, `Graph.Built.strict`,
`Graph.Built.count_comm`, `Graph.Built.degree_eq`, `Graph.Built.perm_weighted`.
-/

namespace PackedGraph

/-! ## One type -/

/-- Relationships that calls on an intake and its batches have built. -/
def Relationships.Built (r : Relationships) : Prop :=
  ∃ (nodes : IdMap) (s : RelationshipSettings) (batches : Nat) (calls : List Call),
    nodes.Valid ∧ (∀ call ∈ calls, call.NamesBatch batches) ∧
      ((Intake.new nodes s batches).serveAll calls).close.build = .ok r

/-- In an ascending list a value is repeated exactly if two neighbours are equal. -/
theorem hasRepeat_eq_false_iff {targets : List Nat} (h : targets.Pairwise (· ≤ ·)) :
    hasRepeat targets = false ↔ targets.Pairwise (· < ·) := by
  induction targets with
  | nil => simp [hasRepeat]
  | cons a rest ih =>
    cases rest with
    | nil => simp [hasRepeat]
    | cons b others =>
      have hstep : hasRepeat (a :: b :: others) = (a == b || hasRepeat (b :: others)) := rfl
      have hrest := List.pairwise_cons.mp h
      rw [hstep, Bool.or_eq_false_iff, ih hrest.2, List.pairwise_cons (l := b :: others)]
      constructor
      · rintro ⟨hne, hstrict⟩
        have hlt : a < b := by
          have hle := hrest.1 b List.mem_cons_self
          have hne : a ≠ b := by simpa using hne
          omega
        refine ⟨fun c hc => ?_, hstrict⟩
        rcases List.mem_cons.mp hc with rfl | hc
        · exact hlt
        · exact hlt.trans ((List.pairwise_cons.mp hstrict).1 c hc)
      · rintro ⟨hlt, hstrict⟩
        have := hlt b List.mem_cons_self
        exact ⟨by simpa using Nat.ne_of_lt this, hstrict⟩

namespace Relationships

/-- What can be read from relationships, and what their marks say about it. -/
structure Sound (r : Relationships) (rows : List (List UInt64)) : Prop where
  /-- The targets of each node are its row. -/
  holds : r.adjacency.Holds rows
  /-- The number of nodes is a word. -/
  length_le : rows.length ≤ largestWord
  /-- Targets are dense ids. -/
  target_lt : ∀ node, ∀ target ∈ r.targets node, target < rows.length
  /-- Without the mark no target is repeated. -/
  strict : r.parallel = false → ∀ node, (r.targets node).Pairwise (· < ·)
  /-- What is stored in both directions can be read in both. -/
  count_comm : r.orientation = .undirected →
    ∀ u v, (r.targets u).count v = (r.targets v).count u

variable {r : Relationships} {rows : List (List UInt64)}

theorem targets_of_le (h : r.adjacency.Holds rows) {node : Nat} (hnode : rows.length ≤ node) :
    r.targets node = [] := by
  rw [targets_of_holds h, rowOf, List.getElem?_eq_none hnode]
  rfl

/-- Beyond the nodes there is nothing to read, so what holds of the nodes' targets holds of all. -/
theorem forall_targets (h : r.adjacency.Holds rows) {P : List Nat → Prop} (hnil : P [])
    (hnodes : ∀ node < rows.length, P (r.targets node)) (node : Nat) : P (r.targets node) := by
  by_cases hnode : node < rows.length
  · exact hnodes node hnode
  · rw [targets_of_le h (Nat.le_of_not_lt hnode)]
    exact hnil

/-- Reading the weights with the targets leaves the targets as they are. -/
theorem map_fst_weighted (r : Relationships) (node : Nat) (fallback : Float) :
    (r.weighted node fallback).map Prod.fst = r.targets node := by
  rw [weighted]
  cases r.weights with
  | none => simp [List.map_map, Function.comp_def]
  | some weights =>
    simp only [List.map_map, Function.comp_def]
    exact List.zipIdx_map_fst 0 _

section Build

variable {nodes : IdMap} {s : RelationshipSettings} {batches : Nat} {calls : List Call}

/-- The rows of what is built, each with what has arrived for its node. -/
theorem exists_rows_of_build (hnodes : nodes.Valid) (hcalls : ∀ call ∈ calls, call.NamesBatch batches)
    (hbuild : ((Intake.new nodes s batches).serveAll calls).close.build = .ok r) :
    ∃ rows, r.adjacency.Holds rows ∧ rows.length = nodes.nodeCount ∧ r.orientation = s.orientation ∧
      (r.parallel = true ↔ ∃ node < nodes.nodeCount, hasRepeat (r.targets node) = true) ∧
      ∀ node < nodes.nodeCount, ∃ row,
        s.aggregation.MakesRow (arrivals nodes s batches calls) node row ∧
          r.targets node = row.map Prod.fst := by
  obtain ⟨all, rows, hrepresents, rfl, hlength, hrows⟩ := Intake.rows_of_calls hnodes hcalls hbuild
  refine ⟨rows.map wordsOf, hrepresents.holds, by rw [List.length_map, hlength], rfl, ?_, ?_⟩
  · rw [show (all.relationships s).parallel = all.parallel from rfl, hrepresents.parallel_eq,
      List.any_eq_true]
    constructor
    · rintro ⟨row, hmem, hrepeat⟩
      obtain ⟨node, hnode, rfl⟩ := List.getElem_of_mem hmem
      obtain ⟨row, hrow, -, hwords⟩ := hrows node (hlength ▸ hnode)
      rw [List.getElem?_eq_getElem hnode] at hrow
      refine ⟨node, hlength ▸ hnode, ?_⟩
      rwa [hrepresents.targets_eq (List.getElem?_eq_getElem hnode) (Option.some.inj hrow ▸ hwords)]
    · rintro ⟨node, hnode, hrepeat⟩
      obtain ⟨row, hrow, -, hwords⟩ := hrows node hnode
      rw [hrepresents.targets_eq hrow hwords] at hrepeat
      exact ⟨row, List.mem_of_getElem? hrow, hrepeat⟩
  · intro node hnode
    obtain ⟨row, hrow, hmakes, hwords⟩ := hrows node hnode
    exact ⟨row, hmakes, hrepresents.targets_eq hrow hwords⟩

/-- Only where all relationships are kept is anything marked as parallel. -/
theorem parallel_of_build (hnodes : nodes.Valid) (hcalls : ∀ call ∈ calls, call.NamesBatch batches)
    (hkind : s.aggregation ≠ .none)
    (hbuild : ((Intake.new nodes s batches).serveAll calls).close.build = .ok r) : r.parallel = false := by
  obtain ⟨rows, -, -, -, hparallel, hrows⟩ := exists_rows_of_build hnodes hcalls hbuild
  by_contra hmark
  obtain ⟨node, hnode, hrepeat⟩ := hparallel.mp (Bool.eq_true_of_not_eq_false hmark)
  obtain ⟨row, hmakes, heq⟩ := hrows node hnode
  rw [heq, (hasRepeat_eq_false_iff hmakes.ascending).mpr (hmakes.strict hkind)] at hrepeat
  exact Bool.false_ne_true hrepeat

/-- Where weights are stored, a row is read with the weights that have been made for it. -/
theorem makesRow_weighted {t : Intake} {l : Ledger} (h : Intake.KeepsLedger nodes s t l) (hnodes : nodes.Valid)
    (hdense : AllBelow nodes.nodeCount l.arrived) (hbuild : t.build = .ok r) (hstores : s.storesWeights = true)
    {node : Nat} (hnode : node < nodes.nodeCount) (fallback : Float) :
    s.aggregation.MakesRow l.arrived node (r.weighted node fallback) := by
  obtain ⟨all, rows, hrepresents, rfl, hlength, hrows⟩ := h.exists_rows hnodes hdense hbuild
  obtain ⟨row, hrow, hmakes, hwords⟩ := hrows node hnode
  have hweights : (all.relationships s).weights = some (.ofDegrees all.weights all.degrees) := if_pos hstores
  have hread : (all.relationships s).weighted node fallback = row := by
    rw [weighted, hweights, hrepresents.targets_eq hrow hwords]
    refine List.ext_getElem (by simp) fun index hleft hright => ?_
    simp only [List.getElem_map, List.getElem_zipIdx, Nat.zero_add, hrepresents.weight_eq hrow hright,
      Option.getD_some]
  rw [hread]
  exact hmakes

theorem makesRow_weighted_of_build (hnodes : nodes.Valid) (hcalls : ∀ call ∈ calls, call.NamesBatch batches)
    (hbuild : ((Intake.new nodes s batches).serveAll calls).close.build = .ok r) (hstores : s.storesWeights = true)
    {node : Nat} (hnode : node < nodes.nodeCount) (fallback : Float) :
    s.aggregation.MakesRow (arrivals nodes s batches calls) node (r.weighted node fallback) :=
  makesRow_weighted (Intake.keepsLedger_close nodes s batches calls) hnodes (allBelow_arrivals hnodes hcalls)
    hbuild hstores hnode fallback

theorem isSome_weights_of_build (hnodes : nodes.Valid) (hcalls : ∀ call ∈ calls, call.NamesBatch batches)
    (hbuild : ((Intake.new nodes s batches).serveAll calls).close.build = .ok r) (hstores : s.storesWeights = true) :
    r.weights.isSome = true := by
  obtain ⟨all, -, -, rfl, -⟩ := Intake.rows_of_calls hnodes hcalls hbuild
  have hweights : (all.relationships s).weights = some (.ofDegrees all.weights all.degrees) := if_pos hstores
  rw [hweights]
  rfl

/-- A pair produces its reverse when both directions are stored. -/
theorem produces_comm (h : s.orientation = .undirected) (u v : Nat) (offer : StoredRelationship) :
    s.produces u v offer = s.produces v u offer := by
  simp only [RelationshipSettings.produces, h]
  congr 1
  rw [Bool.or_comm, Bool.and_comm (decide (offer.target = u)), Bool.and_comm (decide (offer.source = u))]

/-- When both directions are stored, as much remains of one as of the other. -/
theorem length_kept_comm (hcalls : ∀ call ∈ calls, call.NamesBatch batches)
    (h : s.orientation = .undirected) (u v : Nat) :
    (s.aggregation.kept (weightsBetween u v (arrivals nodes s batches calls))).length =
      (s.aggregation.kept (weightsBetween v u (arrivals nodes s batches calls))).length := by
  have hproduces : (s.produces u v) = s.produces v u := funext (produces_comm h u v)
  simp only [Aggregation.length_kept_eq, length_weightsBetween, countP_arrivals nodes s hcalls,
    hproduces]

/-- What calls have built is sound. -/
theorem Built.exists_sound (h : r.Built) : ∃ rows, r.Sound rows := by
  obtain ⟨nodes, s, batches, calls, hnodes, hcalls, hbuild⟩ := h
  obtain ⟨rows, hholds, hlength, horientation, hparallel, hrows⟩ :=
    exists_rows_of_build hnodes hcalls hbuild
  have hlt : ∀ node, ∀ target ∈ r.targets node, target < rows.length := by
    refine forall_targets hholds (P := fun targets => ∀ target ∈ targets, target < _) (by simp) ?_
    intro node hnode
    obtain ⟨row, hmakes, heq⟩ := hrows node (hlength ▸ hnode)
    rw [heq, hlength]
    exact hmakes.target_lt fun r hr => (allBelow_arrivals hnodes hcalls r hr).2
  have hzero : ∀ u v, rows.length ≤ u ∨ rows.length ≤ v → (r.targets u).count v = 0 := by
    rintro u v (hu | hv)
    · rw [targets_of_le hholds hu]
      rfl
    · exact List.count_eq_zero.mpr fun hmem => Nat.not_lt.mpr hv (hlt u v hmem)
  refine ⟨rows, hholds, hlength ▸ hnodes.nodeCount_le, hlt, fun hnone => ?_, fun hundirected u v => ?_⟩
  · refine forall_targets hholds List.Pairwise.nil fun node hnode => ?_
    obtain ⟨row, hmakes, heq⟩ := hrows node (hlength ▸ hnode)
    have hrepeat : hasRepeat (r.targets node) = false := by
      by_contra hrepeat
      have hmark := hparallel.mpr ⟨node, hlength ▸ hnode, Bool.eq_true_of_not_eq_false hrepeat⟩
      exact Bool.false_ne_true (hnone.symm.trans hmark)
    rw [heq] at hrepeat ⊢
    exact (hasRepeat_eq_false_iff hmakes.ascending).mp hrepeat
  · -- Beyond the nodes there is nothing on either side.
    by_cases hout : rows.length ≤ u ∨ rows.length ≤ v
    · rw [hzero u v hout, hzero v u hout.symm]
    · push Not at hout
      obtain ⟨row, hmakes, heq⟩ := hrows u (hlength ▸ hout.1)
      obtain ⟨other, hother, hequal⟩ := hrows v (hlength ▸ hout.2)
      rw [heq, hequal, ← length_weightsTo, ← length_weightsTo, hmakes.weights, hother.weights]
      exact length_kept_comm hcalls (horientation ▸ hundirected) u v

end Build

end Relationships

/-! ## All types -/

/-- A graph that was put together from types that calls have built. -/
def Graph.Built (g : Graph) : Prop :=
  ∃ (nodes : IdMap) (types : List NamedType) (properties : List NodeProperty),
    (∀ type ∈ types, type.relationships.Built) ∧ Graph.assemble? nodes types properties = .ok g

namespace Graph

theorem sources_cursorOver (types : List NamedType) :
    (cursorOver types).sources = types.map (·.relationships.adjacency) := by
  rw [cursorOver]
  generalize types.map (·.relationships.adjacency) = adjacencies
  match adjacencies with
  | [] => exact MergeCursor.sources_ofCursors_unbound []
  | [adjacency] => rfl
  | a :: b :: others => exact MergeCursor.sources_ofCursors_unbound (a :: b :: others)

theorem nodeCount_of_checkTypes {nodeCount : Nat} {types : List NamedType} :
    ∀ {seen : List String}, checkTypes nodeCount seen types = .ok () →
      ∀ type ∈ types, type.relationships.adjacency.nodeCount = nodeCount := by
  induction types with
  | nil => exact fun _ type htype => absurd htype List.not_mem_nil
  | cons type rest ih =>
    intro seen hcheck other hother
    rw [checkTypes] at hcheck
    split at hcheck
    · exact absurd hcheck (by simp)
    · rename_i hcovered
      split at hcheck
      · exact absurd hcheck (by simp)
      · rcases List.mem_cons.mp hother with rfl | hother
        · exact not_not.mp hcovered
        · exact ih hcheck other hother

/-- Types that cover the nodes, each under a name of its own, pass the check. -/
theorem checkTypes_eq {nodeCount : Nat} {types : List NamedType} :
    ∀ {seen : List String}, (∀ type ∈ types, type.relationships.adjacency.nodeCount = nodeCount) →
      (types.map NamedType.name).Nodup → (∀ type ∈ types, type.name ∉ seen) →
      checkTypes nodeCount seen types = .ok () := by
  induction types with
  | nil => exact fun _ _ _ => rfl
  | cons type rest ih =>
    intro seen hcovered hnames hseen
    simp only [List.mem_cons, forall_eq_or_imp] at hcovered hseen
    obtain ⟨hname, hnames⟩ := List.nodup_cons.mp hnames
    rw [checkTypes, if_neg (not_not.mpr hcovered.1), if_neg (by simpa using hseen.1)]
    refine ih hcovered.2 hnames fun other hother => ?_
    rw [List.mem_cons]
    rintro (heq | hmem)
    · exact hname (heq ▸ List.mem_map_of_mem hother)
    · exact hseen.2 other hother hmem

/-- Two sums can change places. -/
theorem sum_map_sum_comm {α β : Type} (xs : List α) (ys : List β) (f : α → β → Nat) :
    (xs.map fun x => (ys.map fun y => f x y).sum).sum =
      (ys.map fun y => (xs.map fun x => f x y).sum).sum := by
  induction xs with
  | nil => simp
  | cons x xs ih => simp only [List.map_cons, List.sum_cons, ih, List.sum_map_add]

namespace Built

variable {g : Graph}

/-- The types of a graph are sound and cover its nodes, and its mark is that of the types together. -/
theorem exists_rows (h : g.Built) :
    (∃ all, List.Forall₂ (fun (type : NamedType) rows =>
        type.relationships.Sound rows ∧ rows.length = g.nodeCount) g.types all) ∧
      g.parallel = hasParallel g.nodeCount g.types := by
  obtain ⟨nodes, types, properties, htypes, hassemble⟩ := h
  rw [assemble?] at hassemble
  cases hproperties : checkProperties nodes.nodeCount properties with
  | error cause =>
    rw [hproperties] at hassemble
    exact absurd hassemble (by simp [bind, Except.bind])
  | ok =>
    cases hcheck : checkTypes nodes.nodeCount [] types with
    | error cause =>
      rw [hproperties, hcheck] at hassemble
      exact absurd hassemble (by simp [bind, Except.bind])
    | ok =>
      rw [hproperties, hcheck] at hassemble
      obtain rfl := Except.ok.inj hassemble
      refine ⟨exists_forall₂ fun type htype => ?_, rfl⟩
      obtain ⟨rows, hsound⟩ := (htypes type htype).exists_sound
      refine ⟨rows, hsound, ?_⟩
      rw [← hsound.holds.nodeCount_eq]
      exact nodeCount_of_checkTypes hcheck type htype

/-- Every type of a graph is sound. -/
theorem exists_sound (h : g.Built) {type : NamedType} (htype : type ∈ g.types) :
    ∃ rows, type.relationships.Sound rows ∧ rows.length = g.nodeCount := by
  obtain ⟨⟨all, hall⟩, -⟩ := h.exists_rows
  obtain ⟨index, hindex, rfl⟩ := List.getElem_of_mem htype
  exact ⟨_, hall.get hindex (hall.length_eq ▸ hindex)⟩

/-! ### Cursors and targets -/

/-- A cursor over the types of the graph shows the targets of the node it is bound to, whatever it showed
before. -/
theorem shows_rebind (h : g.Built) {c : Cursor} (hsources : c.sources = g.rawCursor.sources)
    (node : Nat) : (c.rebind node).Shows (g.targets node) := by
  obtain ⟨⟨all, hall⟩, -⟩ := h.exists_rows
  have hreads : ∀ {c : Cursor}, c.sources = g.rawCursor.sources → c.Reads all := by
    intro c hsources
    rw [Cursor.Reads, hsources, rawCursor, sources_cursorOver, List.forall₂_map_left_iff]
    exact hall.imp fun type rows hsound => hsound.1.holds
  have htargets : g.targets node = mergedRow all node := by
    rw [targets, cursor]
    exact Cursor.toList_of_shows (Cursor.shows_rebind (hreads rfl) node)
  rw [htargets]
  exact Cursor.shows_rebind (hreads hsources) node

/-- The targets of a node are those of all types. -/
theorem perm_targets (h : g.Built) (node : Nat) :
    (g.targets node).Perm (g.types.flatMap fun type => type.relationships.targets node) := by
  obtain ⟨⟨all, hall⟩, -⟩ := h.exists_rows
  have hreads : g.rawCursor.Reads all := by
    rw [Cursor.Reads, rawCursor, sources_cursorOver, List.forall₂_map_left_iff]
    exact hall.imp fun type rows hsound => hsound.1.holds
  have hrows : rowsOf all node = g.types.map fun type => type.relationships.targets node := by
    rw [rowsOf, ← List.forall₂_eq_eq_eq, List.forall₂_map_left_iff, List.forall₂_map_right_iff]
    exact hall.flip.imp fun rows type hsound =>
      (Relationships.targets_of_holds hsound.1.holds node).symm
  rw [targets, cursor, Cursor.toList_of_shows (Cursor.shows_rebind hreads node), mergedRow, hrows,
    List.flatMap_def]
  exact List.mergeSort_perm _ _

/-- The targets of a node ascend. -/
theorem ascending (h : g.Built) (node : Nat) : (g.targets node).Pairwise (· ≤ ·) :=
  Cursor.pairwise_of_shows (h.shows_rebind rfl node)

/-- Targets are dense ids. -/
theorem target_lt (h : g.Built) {node target : Nat} (htarget : target ∈ g.targets node) :
    target < g.nodeCount := by
  obtain ⟨type, htype, hmem⟩ := List.mem_flatMap.mp ((h.perm_targets node).mem_iff.mp htarget)
  obtain ⟨rows, hsound, hlength⟩ := h.exists_sound htype
  exact hlength ▸ hsound.target_lt node target hmem

/-- Where there are targets, the number of nodes is a word. -/
theorem nodeCount_le (h : g.Built) {node target : Nat} (htarget : target ∈ g.targets node) :
    g.nodeCount ≤ largestWord := by
  obtain ⟨type, htype, -⟩ := List.mem_flatMap.mp ((h.perm_targets node).mem_iff.mp htarget)
  obtain ⟨rows, hsound, hlength⟩ := h.exists_sound htype
  exact hlength ▸ hsound.length_le

/-- Only dense ids have targets. -/
theorem source_lt (h : g.Built) {node target : Nat} (htarget : target ∈ g.targets node) :
    node < g.nodeCount := by
  obtain ⟨type, htype, hmem⟩ := List.mem_flatMap.mp ((h.perm_targets node).mem_iff.mp htarget)
  obtain ⟨rows, hsound, hlength⟩ := h.exists_sound htype
  by_contra hge
  rw [Relationships.targets_of_le hsound.holds (hlength ▸ Nat.le_of_not_lt hge)] at hmem
  exact List.not_mem_nil hmem

theorem targets_eq_nil (h : g.Built) {node : Nat} (hnode : g.nodeCount ≤ node) : g.targets node = [] :=
  List.eq_nil_iff_forall_not_mem.mpr fun _ htarget => Nat.not_lt.mpr hnode (h.source_lt htarget)

/-- The degree of a node is the number of its targets. -/
theorem degree_eq (h : g.Built) (node : Nat) : g.degree node = (g.targets node).length := by
  have hdegrees : g.types.map (fun type => type.relationships.adjacency.degree node) =
      g.types.map fun type => (type.relationships.targets node).length := by
    refine List.map_congr_left fun type htype => ?_
    obtain ⟨rows, hsound, -⟩ := h.exists_sound htype
    rw [Relationships.targets_of_holds hsound.holds, hsound.holds.degree_eq, rowOf, List.length_map]
  rw [(h.perm_targets node).length_eq, List.length_flatMap, degree, ← List.foldl_map,
    ← List.sum_eq_foldl, hdegrees]

/-- There are as many relationships as targets. -/
theorem relationshipCount_eq (h : g.Built) :
    g.relationshipCount = (g.nodeList.map fun node => (g.targets node).length).sum := by
  have hcounts : ∀ type ∈ g.types, type.relationships.adjacency.relationshipCount =
      (g.nodeList.map fun node => (type.relationships.targets node).length).sum := by
    intro type htype
    obtain ⟨rows, hsound, hlength⟩ := h.exists_sound htype
    rw [hsound.holds.relationshipCount_eq, nodeList]
    congr 1
    refine List.ext_getElem (by simp [hlength]) fun node hleft hright => ?_
    simp only [List.length_map] at hleft
    simp [Relationships.targets_of_holds hsound.holds, rowOf, hleft]
  have htargets : ∀ node, (g.targets node).length =
      (g.types.map fun type => (type.relationships.targets node).length).sum := fun node => by
    rw [(h.perm_targets node).length_eq, List.length_flatMap]
  rw [relationshipCount, ← List.foldl_map, ← List.sum_eq_foldl, List.map_congr_left hcounts]
  simp only [htargets]
  exact sum_map_sum_comm _ _ _

/-! ### Marks -/

/-- Without parallel relationships no target is repeated, neither in one type nor in two. -/
theorem strict (h : g.Built) (hparallel : g.parallel = false) (node : Nat) :
    (g.targets node).Pairwise (· < ·) := by
  rw [h.exists_rows.2, hasParallel, Bool.or_eq_false_iff] at hparallel
  by_cases hnode : node < g.nodeCount
  · by_cases hseveral : 2 ≤ g.types.length
    · rw [decide_eq_true hseveral, Bool.true_and] at hparallel
      have hrepeat := List.any_eq_false.mp hparallel.2 node (List.mem_range.mpr hnode)
      exact (hasRepeat_eq_false_iff (h.ascending node)).mp (Bool.eq_false_iff.mpr hrepeat)
    · -- A single type knows itself that it has no repeated target.
      have hperm := h.perm_targets node
      rcases htypes : g.types with - | ⟨type, others⟩
      · rw [htypes] at hperm
        rw [hperm.eq_nil]
        exact List.Pairwise.nil
      · obtain rfl : others = [] := by
          rw [htypes, List.length_cons] at hseveral
          exact List.length_eq_zero_iff.mp (by omega)
        have hmem : type ∈ g.types := by simp [htypes]
        obtain ⟨rows, hsound, -⟩ := h.exists_sound hmem
        have hstrict := hsound.strict (by simpa using List.any_eq_false.mp hparallel.1 type hmem) node
        rw [htypes, List.flatMap_singleton] at hperm
        rwa [hperm.eq_of_pairwise (fun a b _ _ => Nat.le_antisymm) (h.ascending node)
          (hstrict.imp Nat.le_of_lt)]
  · rw [h.targets_eq_nil (Nat.le_of_not_lt hnode)]
    exact List.Pairwise.nil

/-- In an undirected graph a node is as often a target of another as the other is of the node. -/
theorem count_comm (h : g.Built) (hundirected : g.isUndirected = true) (u v : Nat) :
    (g.targets u).count v = (g.targets v).count u := by
  rw [(h.perm_targets u).count_eq, (h.perm_targets v).count_eq, List.count_flatMap, List.count_flatMap]
  congr 1
  refine List.map_congr_left fun type htype => ?_
  obtain ⟨rows, hsound, -⟩ := h.exists_sound htype
  have horientation := List.all_eq_true.mp (Bool.and_eq_true_iff.mp hundirected).2 type htype
  exact hsound.count_comm (by simpa using horientation) u v

theorem mem_comm (h : g.Built) (hundirected : g.isUndirected = true) {u v : Nat} :
    v ∈ g.targets u ↔ u ∈ g.targets v := by
  rw [← List.count_pos_iff, ← List.count_pos_iff, h.count_comm hundirected]

/-! ### Weights -/

/-- The targets that are read with their weights are the targets. -/
theorem perm_weighted (h : g.Built) (node : Nat) (fallback : Float) :
    ((g.weighted node fallback).map Prod.fst).Perm (g.targets node) := by
  rw [weighted, List.map_flatMap]
  simp only [Relationships.map_fst_weighted]
  exact (h.perm_targets node).symm

end Built

/-! ### One type -/

/-- How often calls store a pair of nodes. -/
def storedCount (nodes : IdMap) (s : RelationshipSettings) (calls : List Call) (u v : Nat) : Nat :=
  let produced := (offers nodes s calls).countP (s.produces u v)
  if s.aggregation = .none then produced else if 0 < produced then 1 else 0

/-- What calls have built holds the pairs that they store. -/
theorem count_targets_of_build {nodes : IdMap} {s : RelationshipSettings} {batches : Nat}
    {calls : List Call} {r : Relationships} (hnodes : nodes.Valid)
    (hcalls : ∀ call ∈ calls, call.NamesBatch batches)
    (hbuild : ((Intake.new nodes s batches).serveAll calls).close.build = .ok r) {u : Nat}
    (hu : u < nodes.nodeCount) (v : Nat) : (r.targets u).count v = storedCount nodes s calls u v := by
  obtain ⟨rows, -, -, -, -, hrows⟩ := Relationships.exists_rows_of_build hnodes hcalls hbuild
  obtain ⟨row, hmakes, heq⟩ := hrows u hu
  rw [heq, ← length_weightsTo, hmakes.weights, Aggregation.length_kept_eq, length_weightsBetween,
    countP_arrivals nodes s hcalls, storedCount]

/-- Calls that are not to refuse parallel relationships build a type. -/
theorem exists_built_type {nodes : IdMap} {s : RelationshipSettings} {batches : Nat} {calls : List Call}
    (hnodes : nodes.Valid) (hconcurrency : 1 ≤ s.concurrency) (haggregation : s.aggregation ≠ .reject)
    (hcalls : ∀ call ∈ calls, call.NamesBatch batches) :
    ∃ r : Relationships, r.Built ∧ r.adjacency.nodeCount = nodes.nodeCount ∧
      (s.aggregation ≠ .none → r.parallel = false) ∧ (s.storesWeights = true → r.weights.isSome = true) ∧
      ∀ u < nodes.nodeCount, ∀ v, (r.targets u).count v = storedCount nodes s calls u v := by
  obtain ⟨r, hbuild⟩ := Intake.exists_build_of_calls hnodes hconcurrency haggregation hcalls
  obtain ⟨rows, hholds, hlength, -⟩ := Relationships.exists_rows_of_build hnodes hcalls hbuild
  exact ⟨r, ⟨nodes, s, batches, calls, hnodes, hcalls, hbuild⟩, hholds.nodeCount_eq.trans hlength,
    fun hkind => Relationships.parallel_of_build hnodes hcalls hkind hbuild,
    Relationships.isSome_weights_of_build hnodes hcalls hbuild,
    fun u hu v => count_targets_of_build hnodes hcalls hbuild hu v⟩

/-- A graph of the relationships that calls have built, as its only type. -/
def ofBuild (nodes : IdMap) (r : Relationships) : Graph :=
  ⟨nodes, [⟨onlyType, r⟩], [], hasParallel nodes.nodeCount [⟨onlyType, r⟩]⟩

/-- Relationships that cover the nodes are a graph. -/
theorem assemble?_ofBuild {nodes : IdMap} {r : Relationships}
    (h : r.adjacency.nodeCount = nodes.nodeCount) :
    assemble? nodes [⟨onlyType, r⟩] [] = .ok (ofBuild nodes r) := by
  have htypes : checkTypes nodes.nodeCount [] [⟨onlyType, r⟩] = .ok () := by
    simp [checkTypes, h]
  rw [assemble?, htypes]
  rfl

/-- Types that have been built over the nodes, each under a name of its own, are a graph. -/
theorem built_ofTypes {nodes : IdMap} {types : List NamedType}
    (htypes : ∀ type ∈ types, type.relationships.Built)
    (hcovered : ∀ type ∈ types, type.relationships.adjacency.nodeCount = nodes.nodeCount)
    (hnames : (types.map NamedType.name).Nodup) :
    (⟨nodes, types, [], hasParallel nodes.nodeCount types⟩ : Graph).Built := by
  refine ⟨nodes, types, [], htypes, ?_⟩
  rw [assemble?, checkTypes_eq hcovered hnames fun _ _ => List.not_mem_nil]
  rfl

theorem built_ofBuild {nodes : IdMap} {s : RelationshipSettings} {batches : Nat} {calls : List Call}
    {r : Relationships} (hnodes : nodes.Valid) (hcalls : ∀ call ∈ calls, call.NamesBatch batches)
    (hbuild : ((Intake.new nodes s batches).serveAll calls).close.build = .ok r) : (ofBuild nodes r).Built := by
  obtain ⟨rows, hholds, hlength, -⟩ := Relationships.exists_rows_of_build hnodes hcalls hbuild
  have hbuilt : r.Built := ⟨nodes, s, batches, calls, hnodes, hcalls, hbuild⟩
  exact ⟨nodes, _, [], by simpa using hbuilt, assemble?_ofBuild (hholds.nodeCount_eq.trans hlength)⟩

/-- Calls that are not to refuse parallel relationships build a graph of one type over the nodes. -/
theorem exists_built_over {nodes : IdMap} {s : RelationshipSettings} {batches : Nat} {calls : List Call}
    (hnodes : nodes.Valid) (hconcurrency : 1 ≤ s.concurrency) (haggregation : s.aggregation ≠ .reject)
    (hcalls : ∀ call ∈ calls, call.NamesBatch batches) :
    ∃ g : Graph, g.Built ∧ g.nodes = nodes ∧
      g.isUndirected = (s.orientation == .undirected) ∧
      (s.aggregation ≠ .none → g.parallel = false) ∧
      ∀ u < nodes.nodeCount, ∀ v, (g.targets u).count v = storedCount nodes s calls u v := by
  obtain ⟨r, hbuild⟩ := Intake.exists_build_of_calls hnodes hconcurrency haggregation hcalls
  obtain ⟨rows, -, -, horientation, -⟩ := Relationships.exists_rows_of_build hnodes hcalls hbuild
  refine ⟨ofBuild nodes r, built_ofBuild hnodes hcalls hbuild, rfl, ?_, ?_, ?_⟩
  · simp [isUndirected, ofBuild, horientation]
  · intro hkind
    simp [ofBuild, hasParallel, Relationships.parallel_of_build hnodes hcalls hkind hbuild]
  · exact fun u hu v => count_targets_of_build hnodes hcalls hbuild hu v

/-- The graph has as many nodes. -/
theorem exists_built {nodes : IdMap} {s : RelationshipSettings} {batches : Nat} {calls : List Call}
    (hnodes : nodes.Valid) (hconcurrency : 1 ≤ s.concurrency) (haggregation : s.aggregation ≠ .reject)
    (hcalls : ∀ call ∈ calls, call.NamesBatch batches) :
    ∃ g : Graph, g.Built ∧ g.nodeCount = nodes.nodeCount ∧
      g.isUndirected = (s.orientation == .undirected) ∧
      (s.aggregation ≠ .none → g.parallel = false) ∧
      ∀ u < nodes.nodeCount, ∀ v, (g.targets u).count v = storedCount nodes s calls u v := by
  obtain ⟨g, hg, rfl, hrest⟩ := exists_built_over hnodes hconcurrency haggregation hcalls
  exact ⟨g, hg, rfl, hrest⟩

/-- Where weights are stored, they can be read with the targets. -/
theorem exists_weighted_built {nodes : IdMap} {s : RelationshipSettings} {batches : Nat} {calls : List Call}
    (hnodes : nodes.Valid) (hconcurrency : 1 ≤ s.concurrency) (haggregation : s.aggregation ≠ .reject)
    (hstores : s.storesWeights = true) (hcalls : ∀ call ∈ calls, call.NamesBatch batches) :
    ∃ g : Graph, g.Built ∧ g.nodeCount = nodes.nodeCount ∧
      g.isUndirected = (s.orientation == .undirected) ∧ g.isWeighted = true ∧
      ∀ u < nodes.nodeCount, ∀ fallback,
        s.aggregation.MakesRow (arrivals nodes s batches calls) u (g.weighted u fallback) := by
  obtain ⟨r, hbuild⟩ := Intake.exists_build_of_calls hnodes hconcurrency haggregation hcalls
  obtain ⟨rows, -, -, horientation, -⟩ := Relationships.exists_rows_of_build hnodes hcalls hbuild
  refine ⟨ofBuild nodes r, built_ofBuild hnodes hcalls hbuild, rfl, ?_, ?_, fun u hu fallback => ?_⟩
  · simp [isUndirected, ofBuild, horientation]
  · simp [isWeighted, ofBuild, Relationships.isSome_weights_of_build hnodes hcalls hbuild hstores]
  · have hread : (ofBuild nodes r).weighted u fallback = r.weighted u fallback := List.append_nil _
    rw [hread]
    exact Relationships.makesRow_weighted_of_build hnodes hcalls hbuild hstores hu fallback

end Graph

end PackedGraph
