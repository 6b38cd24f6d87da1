import Mathlib.Data.List.Induction
import PackedGraph.Graph.Relationships
import PackedGraph.Proofs.Topology.Cursor

/-!
# Reading targets and weights

The targets of a node are its row in the adjacency.  Weights that begin where the degrees say are found
at the place of their target in the row.

Main statements: `Relationships.targets_of_holds` and `Weights.get?_ofDegrees`.
-/

namespace PackedGraph

namespace Weights

/-- The offset of a node is the number of relationships in front of it. -/
theorem offsets_ofDegrees (degrees : List Nat) :
    degrees.foldl (fun (state : Array Nat × Nat) degree =>
        (state.1.push state.2, state.2 + degree)) (#[], 0) =
      (((List.range degrees.length).map fun node => (degrees.take node).sum).toArray, degrees.sum) := by
  induction degrees using List.reverseRecOn with
  | nil => rfl
  | append_singleton degrees degree ih =>
    rw [List.foldl_append, ih, List.foldl_cons, List.foldl_nil, List.sum_append, List.sum_singleton]
    have hbefore : (List.range degrees.length).map (fun node => ((degrees ++ [degree]).take node).sum) =
        (List.range degrees.length).map fun node => (degrees.take node).sum := by
      refine List.map_congr_left fun node hnode => ?_
      rw [List.take_append_of_le_length (Nat.le_of_lt (List.mem_range.mp hnode))]
    rw [List.length_append, List.length_singleton, List.range_succ, List.map_append,
      List.map_singleton,
      List.take_left, hbefore, List.push_toArray]

/-- Rows that lie behind each other, each found behind those in front of it. -/
theorem getElem?_flatten {α : Type} {rows : List (List α)} {node index : Nat} {row : List α}
    (hrow : rows[node]? = some row) (hindex : index < row.length) :
    rows.flatten[((rows.map List.length).take node).sum + index]? = some row[index] := by
  induction rows generalizing node with
  | nil => exact absurd hrow (by simp)
  | cons first rows ih =>
    cases node with
    | zero =>
      obtain rfl := Option.some.inj hrow
      rw [List.take_zero, List.sum_nil, Nat.zero_add, List.flatten_cons,
        List.getElem?_append_left hindex,
        List.getElem?_eq_getElem hindex]
    | succ node =>
      rw [List.map_cons, List.take_succ_cons, List.sum_cons, Nat.add_assoc, List.flatten_cons,
        List.getElem?_append_right (Nat.le_add_right _ _), Nat.add_sub_cancel_left]
      exact ih hrow

/-- A weight is found at its place in the row of the node. -/
theorem get?_ofDegrees {values : Array Float} {degrees : Array Nat} {rows : List (List Float)}
    (hvalues : values.toList = rows.flatten) (hdegrees : degrees.toList = rows.map List.length)
    {node index : Nat} {row : List Float} (hrow : rows[node]? = some row) (hindex : index < row.length) :
    (ofDegrees values degrees).get? node index = some row[index] := by
  have hnode : node < degrees.toList.length := by
    rw [hdegrees, List.length_map]
    exact (List.getElem?_eq_some_iff.mp hrow).1
  have hoffset : (ofDegrees values degrees).offsets.get? node = some (degrees.toList.take node).sum := by
    rw [ofDegrees, Paged.get?_ofArray, ← Array.foldl_toList, offsets_ofDegrees]
    simp only [List.getElem?_toArray, List.getElem?_map, List.getElem?_range hnode, Option.map_some]
  rw [get?, hoffset, Option.bind_some, ofDegrees, Paged.get?_ofArray, ← Array.getElem?_toList,
    hvalues, hdegrees]
  exact getElem?_flatten hrow hindex

end Weights

namespace Relationships

/-- The targets of a node are its row. -/
theorem targets_of_holds {r : Relationships} {rows : List (List UInt64)}
    (h : r.adjacency.Holds rows) (node : Nat) : r.targets node = rowOf rows node := by
  have hreads : (Cursor.unbound [r.adjacency]).Reads [rows] := .cons h .nil
  have hshows := Cursor.shows_rebind hreads node
  rw [mergedRow_singleton h.ascending] at hshows
  exact Cursor.toList_of_shows hshows

end Relationships

end PackedGraph
