import Mathlib.Algebra.BigOperators.Group.Finset.Basic
import PackedGraph.Proofs.Graph.Built
import PackedGraph.Proofs.Topology.Meet
import PackedGraph.Proofs.Topology.Refinement

/-!
# What two cursors share is a multiset intersection

A cursor may stand anywhere: in front of the targets of a node, behind some of them, or at its end, and a
merging cursor may be made of cursors that stand at different nodes.  `Cursor.Positioned` lists the ways in
which a cursor comes to where it is, with the targets that are left there.  Whatever these are on both sides,
equal targets are paired off one by one until one cursor has run out.

Main statements: `Cursor.Positioned.shows` and `sharedCount_as_multisets`.
-/

namespace PackedGraph

/-! ## Counting pairs -/

/-- Every value is in an intersection as often as in the list that has it less often. -/
theorem length_bagInter (xs ys : List Nat) :
    (xs.bagInter ys).length = ∑ x ∈ xs.toFinset ∪ ys.toFinset, min (xs.count x) (ys.count x) := by
  have hsubset : (xs.bagInter ys).toFinset ⊆ xs.toFinset ∪ ys.toFinset := by
    intro x hx
    rw [List.mem_toFinset, List.mem_bagInter] at hx
    exact Finset.mem_union_left _ (List.mem_toFinset.mpr hx.1)
  calc (xs.bagInter ys).length = ∑ x ∈ (xs.bagInter ys).toFinset, (xs.bagInter ys).count x :=
        (List.sum_toFinset_count_eq_length _).symm
    _ = ∑ x ∈ xs.toFinset ∪ ys.toFinset, (xs.bagInter ys).count x :=
        Finset.sum_subset hsubset fun x _ hx => List.count_eq_zero.mpr fun hmem => hx (List.mem_toFinset.mpr hmem)
    _ = ∑ x ∈ xs.toFinset ∪ ys.toFinset, min (xs.count x) (ys.count x) := by simp only [List.count_bagInter]

theorem length_bagInter_comm (xs ys : List Nat) : (ys.bagInter xs).length = (xs.bagInter ys).length := by
  rw [length_bagInter, length_bagInter, Finset.union_comm]
  exact Finset.sum_congr rfl fun x _ => min_comm _ _

/-! ## Where cursors stand -/

/-- A cursor over one adjacency, with the rows of the adjacency and the targets that it has left. -/
structure Part where
  /-- The cursor. -/
  cursor : RunCursor
  /-- The rows. -/
  rows : List (List UInt64)
  /-- The targets that are left. -/
  rest : List Nat

namespace Cursor

/-- How a cursor comes to where it stands, with the rows of the adjacencies that it reads and the targets
that it has left. -/
inductive Positioned : Cursor → List (List (List UInt64)) → List Nat → Prop where
  /-- A plain cursor over rows that are compressed on the spot. -/
  | compressed {rows : List (List UInt64)} (hrows : Compressible rows) :
    Positioned (single (.unbound (.ofSortedLists rows))) [rows] []
  /-- A plain cursor over relationships that calls have built. -/
  | built {r : Relationships} (hbuilt : r.Built) {rows : List (List UInt64)} (hrows : r.adjacency.Holds rows) :
    Positioned (single (.unbound r.adjacency)) [rows] []
  /-- A merge of plain cursors, wherever each of them stands. -/
  | merge (parts : List Part) (hparts : ∀ part ∈ parts, Positioned (single part.cursor) [part.rows] part.rest) :
    Positioned (merged (.ofCursors (parts.map Part.cursor).toArray)) (parts.map Part.rows)
      ((parts.map Part.rest).flatten.mergeSort fun a b => decide (a ≤ b))
  /-- Bound to a node, it has the targets of the node in front of it. -/
  | rebind {c : Cursor} {all : List (List (List UInt64))} {rest : List Nat} (h : Positioned c all rest) {node : Nat}
    (hnode : ∀ rows ∈ all, node < rows.length) : Positioned (c.rebind node) all (mergedRow all node)
  /-- It has shown its next target. -/
  | peek {c : Cursor} {all : List (List (List UInt64))} {rest : List Nat} (h : Positioned c all rest) :
    Positioned c.peek.2 all rest
  /-- It has taken its next target. -/
  | next {c : Cursor} {all : List (List (List UInt64))} {rest : List Nat} (h : Positioned c all rest) :
    Positioned c.next.2 all rest.tail
  /-- It has taken the targets up to and including the first above a bound. -/
  | skipUntil {c : Cursor} {all : List (List (List UInt64))} {rest : List Nat} (h : Positioned c all rest)
    (bound : Nat) : Positioned (c.skipUntil bound).2 all (rest.dropWhile fun target => decide (target ≤ bound)).tail
  /-- It has taken the targets up to and including the first that is at least a bound. -/
  | advance {c : Cursor} {all : List (List (List UInt64))} {rest : List Nat} (h : Positioned c all rest)
    (bound : Nat) : Positioned (c.advance bound).2 all (rest.dropWhile fun target => decide (target < bound)).tail

variable {c : Cursor} {all : List (List (List UInt64))} {rest : List Nat}

/-- A merge of cursors reads what they read and shows what they show. -/
theorem shows_merge {parts : List Part}
    (h : ∀ part ∈ parts, (single part.cursor).Reads [part.rows] ∧ part.cursor.Shows part.rest) :
    (merged (.ofCursors (parts.map Part.cursor).toArray)).Reads (parts.map Part.rows) ∧
      (merged (.ofCursors (parts.map Part.cursor).toArray)).Shows
        ((parts.map Part.rest).flatten.mergeSort fun a b => decide (a ≤ b)) := by
  constructor
  · rw [Reads, sources, MergeCursor.sources, MergeCursor.map_ofCursors _ RunCursor.source_peek, List.map_map,
      List.forall₂_map_left_iff, List.forall₂_map_right_iff, List.forall₂_same]
    intro part hpart
    obtain ⟨rows, hrows, hholds⟩ := reads_single (h part hpart).1
    rw [(List.cons.inj hrows).1]
    exact hholds
  · have hshows : List.Forall₂ RunCursor.Shows (parts.map Part.cursor) (parts.map Part.rest) := by
      rw [List.forall₂_map_left_iff, List.forall₂_map_right_iff, List.forall₂_same]
      exact fun part hpart => (h part hpart).2
    rw [MergeCursor.ofCursors_eq]
    exact (MergeCursor.merges_offerAll hshows rfl rfl).shows_mergeSort

/-- Wherever a cursor stands, it shows the targets that are left there. -/
theorem Positioned.reads_shows (h : c.Positioned all rest) : c.Reads all ∧ c.Shows rest := by
  induction h with
  | compressed hrows =>
    exact ⟨.cons (Adjacency.holds_ofSortedLists hrows.ascendsFrom) .nil, RunCursor.shows_unbound _⟩
  | built _ hrows => exact ⟨.cons hrows .nil, RunCursor.shows_unbound _⟩
  | merge parts _ ih => exact shows_merge ih
  | rebind _ _ ih =>
    refine ⟨?_, shows_rebind ih.1 _⟩
    rw [Reads, sources_rebind]
    exact ih.1
  | peek _ ih =>
    refine ⟨?_, (peek_of_shows ih.2).2⟩
    rw [Reads, sources_peek]
    exact ih.1
  | next _ ih =>
    refine ⟨?_, (next_of_shows ih.2).2⟩
    rw [Reads, sources_next]
    exact ih.1
  | skipUntil _ bound ih =>
    refine ⟨?_, (seek_of_shows (downward_le bound) ih.2).2⟩
    rw [Reads, Cursor.skipUntil, sources_seek (downward_le bound) ih.2]
    exact ih.1
  | advance _ bound ih =>
    refine ⟨?_, (seek_of_shows (downward_lt bound) ih.2).2⟩
    rw [Reads, Cursor.advance, sources_seek (downward_lt bound) ih.2]
    exact ih.1

theorem Positioned.shows (h : c.Positioned all rest) : c.Shows rest := h.reads_shows.2

end Cursor

/-! ## What two cursors share -/

/-- **Shared targets are a multiset intersection.**  Wherever two cursors stand, plain or merging, the one that
is behind catches up until one has run out, in at most as many turns as there are targets.  The count is then,
over all values, the sum of the smaller number of times that the value is left on either side; so it is the same
from both sides, and where nothing is repeated the number of common targets. -/
theorem sharedCount_as_multisets {left right : Cursor} {leftRows rightRows : List (List (List UInt64))}
    {xs ys : List Nat} (hleft : left.Positioned leftRows xs) (hright : right.Positioned rightRows ys) :
    (∃ turns ≤ xs.length + ys.length, (Meeting.turn^[turns] (.start left right)).ended = true ∧
      (Meeting.turn^[turns] (.start left right)).found.size = left.sharedCount right) ∧
      left.sharedCount right = ∑ x ∈ xs.toFinset ∪ ys.toFinset, min (xs.count x) (ys.count x) ∧
      right.sharedCount left = left.sharedCount right ∧
      (xs.Nodup ∨ ys.Nodup → left.sharedCount right = (xs.toFinset ∩ ys.toFinset).card) := by
  have hcount := Cursor.sharedCount_of_shows hleft.shows hright.shows
  refine ⟨⟨_, le_rfl, ?_⟩, ?_, ?_, fun hsets => ?_⟩
  · obtain ⟨hended, hfound, -⟩ := (Meeting.stands_start hleft.shows hright.shows).iterate_turn le_rfl
    refine ⟨hended, ?_⟩
    rw [← Array.length_toList, hfound, hcount]
    rfl
  · rw [hcount, length_bagInter]
  · rw [hcount, Cursor.sharedCount_of_shows hright.shows hleft.shows, length_bagInter_comm]
  · rw [hcount, length_bagInter_of_nodup hsets]

/-- A merge of a cursor behind its first target with one at another node, and a plain cursor behind its first. -/
theorem sharedCount_of_uneven_merge :
    let first := (RunCursor.unbound (.ofSortedLists [[1, 4, 4, 9]])).rebind 0
    let second := (RunCursor.unbound (.ofSortedLists [[], [2, 4, 7]])).rebind 1
    let left := Cursor.merged (.ofCursors #[first.next.2, second])
    let right := (((Cursor.single (.unbound (.ofSortedLists [[0, 4, 4, 5, 9, 9]]))).rebind 0).advance 0).2
    left.sharedCount right = 3 ∧ right.sharedCount left = 3 := by
  intro first second left right
  have hfirst : (Cursor.single first.next.2).Positioned [[[1, 4, 4, 9]]] [4, 4, 9] := by
    have hrow : mergedRow [[[1, 4, 4, 9]]] 0 = [1, 4, 4, 9] := by cbv
    have hnext : (Cursor.single first.next.2).Positioned [[[1, 4, 4, 9]]] (mergedRow [[[1, 4, 4, 9]]] 0).tail :=
      .next (.rebind (.compressed (by decide)) (by simp))
    rwa [hrow, List.tail_cons] at hnext
  have hsecond : (Cursor.single second).Positioned [[[], [2, 4, 7]]] [2, 4, 7] := by
    have hrow : mergedRow [[[], [2, 4, 7]]] 1 = [2, 4, 7] := by cbv
    exact hrow ▸ .rebind (.compressed (by decide)) (by simp)
  have hleft : left.Positioned [[[1, 4, 4, 9]], [[], [2, 4, 7]]] [2, 4, 4, 4, 7, 9] := by
    have hmerged : [[4, 4, 9], [2, 4, 7]].flatten.mergeSort (fun a b => decide (a ≤ b)) = [2, 4, 4, 4, 7, 9] := by
      cbv
    exact hmerged ▸ .merge [⟨first.next.2, _, [4, 4, 9]⟩, ⟨second, _, [2, 4, 7]⟩]
      (List.forall_mem_cons.mpr ⟨hfirst, List.forall_mem_singleton.mpr hsecond⟩)
  have hright : right.Positioned [[[0, 4, 4, 5, 9, 9]]] [4, 4, 5, 9, 9] := by
    have hrow : mergedRow [[[0, 4, 4, 5, 9, 9]]] 0 = [0, 4, 4, 5, 9, 9] := by cbv
    have hadvanced : right.Positioned [[[0, 4, 4, 5, 9, 9]]]
        ((mergedRow [[[0, 4, 4, 5, 9, 9]]] 0).dropWhile fun target => decide (target < 0)).tail :=
      .advance (.rebind (.compressed (by decide)) (by simp)) 0
    rwa [hrow, List.dropWhile_cons_of_neg (by decide), List.tail_cons] at hadvanced
  obtain ⟨-, hsum, hcomm, -⟩ := sharedCount_as_multisets hleft hright
  have hthree : left.sharedCount right = 3 := hsum.trans (by decide)
  exact ⟨hthree, hcomm.trans hthree⟩

end PackedGraph
