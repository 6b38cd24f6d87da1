import Mathlib.Data.List.Basic
import PackedGraph.Graph.IdMap
import PackedGraph.Settings.Basic

/-!
# Dense ids are below the node count

An id map is *valid* when its dense ids are below its node count and the node count is a word.  All maps
that can be made of at most so many ids are valid.
-/

namespace PackedGraph

namespace IdMap

/-- The dense ids are numbers below the node count, which is a word. -/
structure Valid (m : IdMap) : Prop where
  /-- The node count is a word. -/
  nodeCount_le : m.nodeCount ≤ largestWord
  /-- Whatever is found is below the node count. -/
  dense_lt : ∀ external dense, m.toDense? external = some dense → dense < m.nodeCount

theorem valid_identity {nodeCount : Nat} (h : nodeCount ≤ largestWord) :
    (identity nodeCount).Valid := by
  refine ⟨h, fun external dense hdense => ?_⟩
  rw [show (identity nodeCount).toDense? external = if external.toNat < (identity nodeCount).nodeCount
    then some external.toNat else none from rfl, Option.ite_none_right_eq_some] at hdense
  rw [← Option.some.inj hdense.2]
  exact hdense.1

/-- A table into which numbers are put holds no others. -/
theorem mem_foldl_insert {entries : List (UInt64 × Nat)} {bound : Nat}
    (h : ∀ entry ∈ entries, entry.2 < bound) :
    ∀ {map : Std.HashMap UInt64 Nat},
      (∀ (id : UInt64) (dense : Nat), map[id]? = some dense → dense < bound) →
        ∀ (id : UInt64) (dense : Nat),
          (entries.foldl (fun map (id, dense) => map.insert id dense) map)[id]? = some dense →
            dense < bound := by
  induction entries with
  | nil => exact fun hmap => hmap
  | cons entry entries ih =>
    intro map hmap
    refine ih (fun other hother => h other (List.mem_cons_of_mem _ hother)) fun id dense hfound => ?_
    rw [Std.HashMap.getElem?_insert] at hfound
    split at hfound
    · rw [← Option.some.inj hfound]
      exact h entry List.mem_cons_self
    · exact hmap id dense hfound

theorem valid_ofAscending {ids : List UInt64} (h : ids.length ≤ largestWord) :
    (ofAscending ids).Valid := by
  have hcount : (ofAscending ids).nodeCount = ids.length := by
    simp [ofAscending, nodeCount, Paged.ofList, Paged.ofArray]
  refine ⟨hcount ▸ h, fun external dense hdense => ?_⟩
  rw [hcount]
  refine mem_foldl_insert (fun entry hentry => ?_) (fun id dense hnone => ?_) external dense hdense
  · exact (List.getElem?_eq_some_iff.mp (List.mem_zipIdx_iff_getElem?.mp hentry)).1
  · rw [Std.HashMap.getElem?_empty] at hnone
    exact absurd hnone (by simp)

theorem length_dropRepeats_le (ids : List UInt64) : (dropRepeats ids).length ≤ ids.length := by
  rw [dropRepeats]
  induction ids with
  | nil => exact Nat.le_refl _
  | cons id ids ih =>
    rw [List.foldr_cons]
    split <;> simp only [List.length_cons] at * <;> omega

theorem valid_ofIds {ids : List UInt64} (h : ids.length ≤ largestWord) : (ofIds ids).Valid := by
  refine valid_ofAscending (Nat.le_trans (length_dropRepeats_le _) ?_)
  rwa [List.length_mergeSort]

end IdMap

end PackedGraph
