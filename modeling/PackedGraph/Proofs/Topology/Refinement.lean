import PackedGraph.Proofs.Topology.Cursor

/-!
# Cursors answer as a plain list does

The reference is a `ListCursor`: the targets of a node as a list, and a position in it.  Whatever is
asked of a cursor, in whatever order, it answers as the reference does that holds the node's targets: a
plain cursor the targets of the node, a merging one the targets of the node in all adjacencies together.

Main statements: `single_answers_as_list` and `merged_answers_as_list`, both by way of
`Cursor.refines_answers`: one request keeps cursor and reference together (`Cursor.refines_answer`), so
any number of them does.
-/

namespace PackedGraph

/-! ## Requests and the reference -/

/-- What can be asked of a cursor. -/
inductive Request where
  /-- Bind the cursor to a node. -/
  | bind (node : Nat)
  /-- Show the next target. -/
  | peek
  /-- Take the next target. -/
  | next
  /-- Tell whether there is a next target. -/
  | hasNext
  /-- Tell how many targets are not taken. -/
  | remaining
  /-- Tell how many targets the node has. -/
  | degree
  /-- Take targets up to and including the first above a bound. -/
  | skipUntil (bound : Nat)
  /-- Take targets up to and including the first that is at least a bound. -/
  | advance (bound : Nat)
  deriving Repr, DecidableEq

/-- What a cursor says. -/
inductive Answer where
  /-- Whether binding was accepted. -/
  | bound (accepted : Bool)
  /-- A target, or none when there is none left. -/
  | target (found : Option Nat)
  /-- A yes or a no. -/
  | flag (holds : Bool)
  /-- A count. -/
  | number (count : Nat)
  deriving Repr, DecidableEq

/-- A plain list of targets and the position of the next one. -/
structure ListCursor where
  /-- The targets of the node. -/
  targets : List Nat
  /-- How many of them have been passed. -/
  position : Nat
  deriving Repr, DecidableEq

namespace ListCursor

/-- The targets that are not taken. -/
def rest (c : ListCursor) : List Nat := c.targets.drop c.position

/-- Take targets up to and including the first that is wanted; all of them when none is. -/
def seek (wanted : Nat → Bool) (c : ListCursor) : Option Nat × ListCursor :=
  match c.rest.findIdx? wanted with
  | some index => (c.rest[index]?, ⟨c.targets, c.position + index + 1⟩)
  | none => (none, ⟨c.targets, c.targets.length⟩)

/-- Answer a request, where `row` gives the targets of every node. -/
def answer (row : Nat → List Nat) (c : ListCursor) : Request → Answer × ListCursor
  | .bind node => (.bound true, ⟨row node, 0⟩)
  | .peek => (.target c.targets[c.position]?, c)
  | .next =>
    (.target c.targets[c.position]?, ⟨c.targets, min (c.position + 1) c.targets.length⟩)
  | .hasNext => (.flag (decide (c.position < c.targets.length)), c)
  | .remaining => (.number (c.targets.length - c.position), c)
  | .degree => (.number c.targets.length, c)
  | .skipUntil bound =>
    let (found, c) := c.seek fun target => decide (bound < target)
    (.target found, c)
  | .advance bound =>
    let (found, c) := c.seek fun target => decide (bound ≤ target)
    (.target found, c)

/-- Answer requests one after the other. -/
def answers (row : Nat → List Nat) : List Request → ListCursor → List Answer × ListCursor
  | [], c => ([], c)
  | request :: requests, c =>
    let (said, c) := c.answer row request
    let (later, c) := answers row requests c
    (said :: later, c)

/-- A reference that holds the targets of a node, or nothing. -/
def startingAt (row : Nat → List Nat) : Option Nat → ListCursor
  | none => ⟨[], 0⟩
  | some node => ⟨row node, 0⟩

theorem head?_rest (c : ListCursor) : c.rest.head? = c.targets[c.position]? := by
  rw [rest, List.head?_drop]

theorem length_rest (c : ListCursor) : c.rest.length = c.targets.length - c.position := by
  rw [rest, List.length_drop]

/-- What is left after a search, when the targets that are not wanted are those that are passed. -/
theorem seek_eq (c : ListCursor) {wanted passed : Nat → Bool}
    (h : ∀ target, wanted target = !passed target) :
    (c.seek wanted).1 = (c.rest.dropWhile passed).head? ∧
      (c.seek wanted).2.rest = (c.rest.dropWhile passed).tail ∧
      (c.seek wanted).2.targets = c.targets := by
  have hdrop : c.rest.dropWhile passed = c.rest.drop (c.rest.findIdx wanted) := by
    rw [List.dropWhile_eq_drop_findIdx_not]
    congr 2
    funext target
    rw [h]
  rw [seek]
  split
  case h_1 index hindex =>
    have heq := (List.findIdx?_eq_some_iff_findIdx_eq.mp hindex).2
    rw [hdrop, heq, List.head?_drop, List.tail_drop]
    exact ⟨rfl, by rw [rest, rest, List.drop_drop, Nat.add_assoc], rfl⟩
  case h_2 hnone =>
    have heq := List.findIdx?_eq_none_iff_findIdx_eq.mp hnone
    rw [hdrop, heq, List.drop_length]
    exact ⟨rfl, List.drop_length, rfl⟩

end ListCursor

namespace Cursor

/-- Answer a request. -/
def answer (c : Cursor) : Request → Answer × Cursor
  | .bind node =>
    let (c, accepted) := c.rebindChecked node
    (.bound accepted, c)
  | .peek =>
    let (found, c) := c.peek
    (.target found, c)
  | .next =>
    let (found, c) := c.next
    (.target found, c)
  | .hasNext => (.flag (decide (0 < c.remaining)), c)
  | .remaining => (.number c.remaining, c)
  | .degree => (.number c.degree, c)
  | .skipUntil bound =>
    let (found, c) := c.skipUntil bound
    (.target found, c)
  | .advance bound =>
    let (found, c) := c.advance bound
    (.target found, c)

/-- Answer requests one after the other. -/
def answers : List Request → Cursor → List Answer × Cursor
  | [], c => ([], c)
  | request :: requests, c =>
    let (said, c) := c.answer request
    let (later, c) := answers requests c
    (said :: later, c)

/-! ## Cursor and reference side by side -/

/-- The cursor shows what the reference has left, over adjacencies with the given rows. -/
structure Refines (all : List (List (List UInt64))) (c : Cursor) (reference : ListCursor) : Prop where
  /-- The adjacencies hold the rows. -/
  reads : c.Reads all
  /-- The cursor shows what the reference has left. -/
  shows : c.Shows reference.rest
  /-- The node has as many targets as the reference. -/
  degree : c.degrees.sum = reference.targets.length

variable {all : List (List (List UInt64))} {c : Cursor} {reference : ListCursor}

theorem refines_peek (h : Refines all c reference) :
    c.peek.1 = reference.targets[reference.position]? ∧ Refines all c.peek.2 reference := by
  obtain ⟨hhead, hshows⟩ := peek_of_shows h.shows
  refine ⟨hhead.trans reference.head?_rest, ?_, hshows, ?_⟩
  · rw [Reads, sources_peek]
    exact h.reads
  · rw [degrees_peek]
    exact h.degree

theorem refines_next (h : Refines all c reference) :
    c.next.1 = reference.targets[reference.position]? ∧
      Refines all c.next.2
        ⟨reference.targets, min (reference.position + 1) reference.targets.length⟩ := by
  obtain ⟨hhead, hshows⟩ := next_of_shows h.shows
  refine ⟨hhead.trans reference.head?_rest, ?_, ?_, ?_⟩
  · rw [Reads, sources_next]
    exact h.reads
  · have hrest : ListCursor.rest ⟨reference.targets,
        min (reference.position + 1) reference.targets.length⟩ = reference.rest.tail := by
      rw [ListCursor.rest, ListCursor.rest, List.tail_drop, List.drop_eq_drop_iff, Nat.min_assoc,
        Nat.min_self]
    rw [hrest]
    exact hshows
  · rw [degrees_next]
    exact h.degree

theorem refines_seek (wanted : Nat → Bool) (h : Refines all c reference) {passed : Nat → Bool}
    (hdown : Downward passed) (hnot : ∀ target, wanted target = !passed target) :
    (c.seek passed).1 = (reference.seek wanted).1 ∧
      Refines all (c.seek passed).2 (reference.seek wanted).2 := by
  obtain ⟨hfound, hshows⟩ := seek_of_shows hdown h.shows
  obtain ⟨hfound', hrest, htargets⟩ := reference.seek_eq hnot
  refine ⟨hfound.trans hfound'.symm, ?_, ?_, ?_⟩
  · rw [Reads, sources_seek hdown h.shows]
    exact h.reads
  · rw [hrest]
    exact hshows
  · rw [degrees_seek hdown h.shows, htargets]
    exact h.degree

theorem refines_bind (h : c.Reads all) (node : Nat) :
    Refines all (c.rebind node) ⟨mergedRow all node, 0⟩ := by
  refine ⟨?_, shows_rebind h node, ?_⟩
  · rw [Reads, sources_rebind]
    exact h
  · rw [degrees_rebind h, length_mergedRow]

/-- One request is answered alike, and cursor and reference stay together. -/
theorem refines_answer (h : Refines all c reference) (request : Request)
    (hnode : ∀ node, request = .bind node → ∀ rows ∈ all, node < rows.length) :
    (c.answer request).1 = (reference.answer (mergedRow all) request).1 ∧
      Refines all (c.answer request).2 (reference.answer (mergedRow all) request).2 := by
  have hremaining := remaining_of_shows h.shows
  rw [ListCursor.length_rest] at hremaining
  cases request with
  | bind node =>
    simp only [answer, rebindChecked_eq h.reads (hnode node rfl), ListCursor.answer]
    exact ⟨trivial, refines_bind h.reads node⟩
  | peek =>
    obtain ⟨hfound, hrefines⟩ := refines_peek h
    exact ⟨congrArg Answer.target hfound, hrefines⟩
  | next =>
    obtain ⟨hfound, hrefines⟩ := refines_next h
    exact ⟨congrArg Answer.target hfound, hrefines⟩
  | hasNext =>
    refine ⟨congrArg Answer.flag ?_, h⟩
    rw [hremaining, decide_eq_decide]
    exact Nat.sub_pos_iff_lt
  | remaining => exact ⟨congrArg Answer.number hremaining, h⟩
  | degree => exact ⟨congrArg Answer.number (c.degree_eq.trans h.degree), h⟩
  | skipUntil bound =>
    obtain ⟨hfound, hrefines⟩ := refines_seek (fun target => decide (bound < target)) h
      (downward_le bound) fun target => by rw [← decide_not, decide_eq_decide, not_le]
    exact ⟨congrArg Answer.target hfound, hrefines⟩
  | advance bound =>
    obtain ⟨hfound, hrefines⟩ := refines_seek (fun target => decide (bound ≤ target)) h
      (downward_lt bound) fun target => by rw [← decide_not, decide_eq_decide, not_lt]
    exact ⟨congrArg Answer.target hfound, hrefines⟩

/-- Any number of requests is answered alike. -/
theorem refines_answers {requests : List Request} (h : Refines all c reference)
    (hnodes : ∀ node, .bind node ∈ requests → ∀ rows ∈ all, node < rows.length) :
    (answers requests c).1 = (ListCursor.answers (mergedRow all) requests reference).1 ∧
      Refines all (answers requests c).2 (ListCursor.answers (mergedRow all) requests reference).2 := by
  induction requests generalizing c reference with
  | nil => exact ⟨rfl, h⟩
  | cons request requests ih =>
    obtain ⟨hsaid, hrefines⟩ := refines_answer h request
      fun node hnode => hnodes node (hnode ▸ List.mem_cons_self)
    obtain ⟨hlater, hend⟩ := ih hrefines fun node hnode => hnodes node (List.mem_cons_of_mem _ hnode)
    exact ⟨congr_arg₂ List.cons hsaid hlater, hend⟩

/-- A merging cursor stays one, whatever is asked of it. -/
theorem answers_merged (requests : List Request) (c : MergeCursor) :
    ∃ reached, (answers requests (merged c)).2 = merged reached := by
  have hseek : ∀ (passed : Nat → Bool) (steps : Nat) (c : MergeCursor),
      ∃ reached, (seekStepwise passed steps (merged c)).2 = merged reached := by
    intro passed steps
    induction steps with
    | zero => exact fun c => ⟨c.next.2, rfl⟩
    | succ steps ih =>
      intro c
      rw [seekStepwise_succ]
      split
      · exact ⟨c.next.2, rfl⟩
      · split
        · exact ih c.next.2
        · exact ⟨c.next.2, rfl⟩
  have hanswer : ∀ (request : Request) (c : MergeCursor),
      ∃ reached, ((merged c).answer request).2 = merged reached := by
    intro request c
    cases request with
    | bind node => exact ⟨_, rfl⟩
    | peek => exact ⟨c, rfl⟩
    | next => exact ⟨_, rfl⟩
    | hasNext => exact ⟨c, rfl⟩
    | remaining => exact ⟨c, rfl⟩
    | degree => exact ⟨c, rfl⟩
    | skipUntil bound => exact hseek _ c.remaining c
    | advance bound => exact hseek _ c.remaining c
  induction requests generalizing c with
  | nil => exact ⟨c, rfl⟩
  | cons request requests ih =>
    obtain ⟨reached, hreached⟩ := hanswer request c
    obtain ⟨last, hlast⟩ := ih reached
    exact ⟨last, by rw [← hlast, ← hreached]; rfl⟩

theorem refines_startingAt (h : c.Reads all) (hshows : c.Shows []) (hdegree : c.degrees.sum = 0) :
    ∀ first : Option Nat, Refines all (first.elim c c.rebind) (ListCursor.startingAt (mergedRow all) first)
  | none => ⟨h, hshows, hdegree⟩
  | some node => refines_bind h node

end Cursor

/-! ## Plain and merging cursors -/

/-- A cursor over one adjacency, bound to no node or to a first one. -/
def RunCursor.startingAt (first : Option Nat) (source : Adjacency) : RunCursor :=
  first.elim (unbound source) (unbound source).rebind

/-- A cursor that starts out bound is an unbound one that is bound at once. -/
theorem single_startingAt (source : Adjacency) (first : Option Nat) :
    Cursor.single (.startingAt first source) =
      first.elim (Cursor.single (.unbound source)) (Cursor.single (.unbound source)).rebind := by
  cases first <;> rfl

/-- Merging cursors that start out bound is binding the merge of unbound ones. -/
theorem merged_startingAt (sources : List Adjacency) (first : Option Nat) :
    Cursor.merged (.ofCursors (sources.map (RunCursor.startingAt first)).toArray) =
      first.elim (Cursor.merged (.ofCursors (sources.map RunCursor.unbound).toArray))
        (Cursor.merged (.ofCursors (sources.map RunCursor.unbound).toArray)).rebind := by
  cases first with
  | none => rfl
  | some node =>
    rw [Option.elim_some, Cursor.rebind, ← MergeCursor.ofCursors_map_rebind, List.map_map]
    rfl

/-- Rows that can be compressed: each ascends, and none holds the mark of the end. -/
def Compressible (rows : List (List UInt64)) : Prop :=
  ∀ row ∈ rows, row.Pairwise (· ≤ ·) ∧ Varint.absent ∉ row

instance (rows : List (List UInt64)) : Decidable (Compressible rows) :=
  inferInstanceAs (Decidable (∀ row ∈ rows, row.Pairwise (· ≤ ·) ∧ Varint.absent ∉ row))

theorem Compressible.ascendsFrom {rows : List (List UInt64)} (h : Compressible rows) :
    ∀ row ∈ rows, Varint.AscendsFrom 0 row := fun row hrow =>
  ⟨List.pairwise_cons.mpr ⟨fun _ _ => UInt64.le_iff_toNat_le.mpr (Nat.zero_le _), (h row hrow).1⟩,
    (h row hrow).2⟩

/-- **A plain cursor is a plain list.**  Over compressed rows, and from whatever it is bound to at first,
a cursor answers all requests in all orders as the reference does that holds the row of the node.  At
every point a search by windows is the search target by target, and leaves the same cursor.  The counts
of the adjacency are those of the rows. -/
theorem single_answers_as_list {rows : List (List UInt64)} (hrows : Compressible rows)
    (first : Option Nat) (requests : List Request)
    (hnodes : ∀ node, .bind node ∈ requests → node < rows.length) :
    let start := Cursor.single (.startingAt first (.ofSortedLists rows))
    let reached := (start.answers requests).2
    (start.answers requests).1 =
        ((ListCursor.startingAt (rowOf rows) first).answers (rowOf rows) requests).1 ∧
      (∀ bound steps, reached.remaining ≤ steps →
        reached.skipUntil bound = reached.seekStepwise (fun target => decide (target ≤ bound)) steps ∧
        reached.advance bound = reached.seekStepwise (fun target => decide (target < bound)) steps) ∧
      (Adjacency.ofSortedLists rows).nodeCount = rows.length ∧
      (∀ node, (Adjacency.ofSortedLists rows).degree node = (rowOf rows node).length) ∧
      (Adjacency.ofSortedLists rows).relationshipCount = (rows.map List.length).sum := by
  intro start reached
  have hholds := Adjacency.holds_ofSortedLists hrows.ascendsFrom
  have hreads : (Cursor.single (.unbound (.ofSortedLists rows))).Reads [rows] :=
    List.Forall₂.cons hholds List.Forall₂.nil
  have hstart : Cursor.Refines [rows] start (ListCursor.startingAt (mergedRow [rows]) first) := by
    rw [show start = _ from single_startingAt _ first]
    exact Cursor.refines_startingAt hreads (RunCursor.shows_unbound _) rfl first
  obtain ⟨hanswers, hreached⟩ := Cursor.refines_answers hstart fun node hnode other hother => by
    rw [List.mem_singleton.mp hother]
    exact hnodes node hnode
  rw [mergedRow_singleton hrows.ascendsFrom] at hanswers hreached
  refine ⟨hanswers, fun bound steps hsteps => ?_, hholds.nodeCount_eq, fun node => ?_,
    hholds.relationshipCount_eq⟩
  · rw [Cursor.remaining_of_shows hreached.shows] at hsteps
    exact ⟨(Cursor.seekStepwise_eq_seek (Cursor.downward_le bound) hreached.shows hsteps).symm,
      (Cursor.seekStepwise_eq_seek (Cursor.downward_lt bound) hreached.shows hsteps).symm⟩
  · rw [hholds.degree_eq, rowOf, List.length_map]

/-- A search into the second window of a row, a rebind in its midst, and a row with equal targets. -/
theorem answers_across_windows :
    ((Cursor.single (.startingAt none (.ofSortedLists
        [(List.range 70).map fun i => UInt64.ofNat (3 * i), [], [1, 1, 1, 4]]))).answers
      [.hasNext, .bind 0, .peek, .skipUntil 6, .advance 199, .remaining, .bind 2, .next, .skipUntil 1,
        .next, .advance 0, .bind 1, .degree, .peek]).1 =
      [.flag false, .bound true, .target (some 0), .target (some 9), .target (some 201), .number 2,
        .bound true, .target (some 1), .target (some 4), .target none, .target none, .bound true, .number 0,
        .target none] := by
  refine (single_answers_as_list ?rows none _ ?nodes).1.trans ?answers
  case rows => decide +kernel
  case nodes =>
    intro node hnode
    simp only [List.mem_cons, Request.bind.injEq, reduceCtorEq, List.not_mem_nil, false_or,
      or_false] at hnode
    simp only [List.length_cons, List.length_nil]
    omega
  case answers => decide +kernel

/-- **A merging cursor is the cursor of the merged list.**  Over any number of compressed adjacencies
of the same nodes, and from whatever its cursors are bound to at first, a merging cursor answers all
requests in all orders as the reference does that holds the sorted union of the node's rows.  At no
point, and so neither between two steps of a search, is a cursor found out of order. -/
theorem merged_answers_as_list {all : List (List (List UInt64))} {nodes : Nat}
    (hrows : ∀ rows ∈ all, Compressible rows ∧ rows.length = nodes)
    (first : Option Nat) (requests : List Request) (hnodes : ∀ node, .bind node ∈ requests → node < nodes) :
    let cursors := all.map fun rows => RunCursor.startingAt first (.ofSortedLists rows)
    let start := Cursor.merged (.ofCursors cursors.toArray)
    (start.answers requests).1 =
        ((ListCursor.startingAt (mergedRow all) first).answers (mergedRow all) requests).1 ∧
      ∃ reached, (start.answers requests).2 = .merged reached ∧ reached.disorder? = none := by
  intro cursors start
  set sources := all.map Adjacency.ofSortedLists with hsources
  have hcursors : cursors = sources.map (RunCursor.startingAt first) := by
    rw [hsources, List.map_map]
    rfl
  have hreads : (Cursor.merged (.ofCursors (sources.map RunCursor.unbound).toArray)).Reads all := by
    rw [Cursor.Reads, Cursor.sources, MergeCursor.sources_ofCursors_unbound, hsources,
      List.forall₂_map_left_iff, List.forall₂_same]
    exact fun rows hmem => Adjacency.holds_ofSortedLists (hrows rows hmem).1.ascendsFrom
  have hstart : Cursor.Refines all start (ListCursor.startingAt (mergedRow all) first) := by
    rw [show start = _ from hcursors ▸ merged_startingAt sources first]
    exact Cursor.refines_startingAt hreads (MergeCursor.shows_ofCursors_unbound sources)
      (MergeCursor.sum_degrees_ofCursors_unbound sources) first
  obtain ⟨hanswers, hreached⟩ := Cursor.refines_answers hstart fun node hnode rows hmem => by
    rw [(hrows rows hmem).2]
    exact hnodes node hnode
  obtain ⟨reached, hmerged⟩ := Cursor.answers_merged requests (.ofCursors cursors.toArray)
  refine ⟨hanswers, reached, hmerged, ?_⟩
  have hshows := hreached.shows
  rw [hmerged] at hshows
  exact MergeCursor.disorder_of_shows hshows

/-- Two adjacencies with targets in common and an empty run, searched and bound again. -/
theorem answers_of_two_runs :
    ((Cursor.merged (.ofCursors ([[[1, 4, 4], []], [[0, 4, 9], [2, 2]]].map fun rows =>
        RunCursor.startingAt (some 1) (.ofSortedLists rows)).toArray)).answers
      [.remaining, .next, .bind 0, .degree, .skipUntil 0, .next, .advance 4, .remaining, .skipUntil 9,
        .hasNext]).1 =
      [.number 2, .target (some 2), .bound true, .number 6, .target (some 1), .target (some 4),
        .target (some 4), .number 2, .target none, .flag false] := by
  refine (@merged_answers_as_list _ 2 ?rows (some 1) _ ?nodes).1.trans ?answers
  case rows => decide +kernel
  case nodes =>
    intro node hnode
    simp only [List.mem_cons, Request.bind.injEq, reduceCtorEq, List.not_mem_nil, false_or,
      or_false] at hnode
    omega
  case answers => cbv

end PackedGraph
