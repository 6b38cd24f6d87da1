import Mathlib.Data.List.Sort
import PackedGraph.Graph.IdMap
import PackedGraph.Proofs.Ingest.Sorting
import PackedGraph.Proofs.Storage.Paged

/-!
# Dense ids count the external ids in order

A numbering of strictly ascending ids gives every id its place among them.  Ids that come in any order
and repeatedly are first brought into such a list, which is known by its members alone: so it makes no
difference whether they are sorted or collected.

Main statements: `IdMap.toDense?_ofAscending` and `IdCollector.build_eq_ofIds`.
-/

namespace PackedGraph

/-- Ids that are sorted, ascend. -/
theorem pairwise_mergeSort_ids (ids : List UInt64) :
    (ids.mergeSort fun a b => decide (a ≤ b)).Pairwise (· ≤ ·) := by
  have hsorted := @List.pairwise_mergeSort UInt64 (fun a b => decide (a ≤ b))
    (fun a b c hab hbc => decide_eq_true (UInt64.le_trans (of_decide_eq_true hab) (of_decide_eq_true hbc)))
    (fun a b => by simpa using UInt64.le_total a b) ids
  exact hsorted.imp of_decide_eq_true

namespace IdMap

/-! ## Strictly ascending ids -/

@[simp] theorem nodeCount_ofAscending (ids : List UInt64) : (ofAscending ids).nodeCount = ids.length := by
  simp [ofAscending, nodeCount, Paged.ofList]

@[simp] theorem toExternal_ofAscending (ids : List UInt64) (dense : Nat) :
    (ofAscending ids).toExternal dense = ids[dense]?.getD 0 := by
  rw [toExternal, ofAscending, Paged.ofList, Paged.getD_ofArray, List.getElem?_toArray]

/-- An id that occurs once has its place as its dense id. -/
theorem toDense?_ofAscending {ids : List UInt64} (h : ids.Nodup) (id : UInt64) (dense : Nat) :
    (ofAscending ids).toDense? id = some dense ↔ ids[dense]? = some id := by
  unfold toDense? ofAscending
  induction ids using List.reverseRecOn generalizing dense with
  | nil => simp
  | append_singleton ids last ih =>
    obtain ⟨hids, -, hlast⟩ := List.nodup_append.mp h
    simp only [List.zipIdx_append, List.foldl_append, List.zipIdx_cons, List.zipIdx_nil, List.foldl_cons,
      List.foldl_nil, Nat.zero_add, Std.HashMap.getElem?_insert] at ih ⊢
    by_cases heq : last = id
    · subst heq
      rw [if_pos (beq_self_eq_true _), Option.some_inj, List.getElem?_append]
      constructor
      · rintro rfl
        simp
      · split
        · exact fun hfound => absurd rfl (hlast _ (List.mem_of_getElem? hfound) _ (List.mem_singleton_self _))
        · intro hfound
          have := (List.getElem?_eq_some_iff.mp hfound).1
          rw [List.length_singleton] at this
          omega
    · rw [if_neg (by simpa using heq), ih hids, List.getElem?_append]
      split
      · rfl
      · rw [List.getElem?_eq_none (by omega), List.getElem?_singleton]
        split <;> simp [heq]

/-- Every id has a place. -/
theorem exists_toDense?_ofAscending {ids : List UInt64} (h : ids.Nodup) {id : UInt64} (hid : id ∈ ids) :
    ∃ dense < ids.length, (ofAscending ids).toDense? id = some dense := by
  obtain ⟨dense, hdense, hget⟩ := List.getElem_of_mem hid
  exact ⟨dense, hdense, (toDense?_ofAscending h id dense).mpr (List.getElem?_eq_some_iff.mpr ⟨hdense, hget⟩)⟩

/-! ## Ids in any order -/

/-- The ids in strict order, each once. -/
def ascendingOf (ids : List UInt64) : List UInt64 := dropRepeats (ids.mergeSort fun a b => decide (a ≤ b))

theorem ofIds_eq (ids : List UInt64) : ofIds ids = ofAscending (ascendingOf ids) := rfl

theorem pairwise_ascendingOf (ids : List UInt64) : (ascendingOf ids).Pairwise (· < ·) :=
  (dedup_of_ascending (pairwise_mergeSort_ids ids)).1

@[simp] theorem mem_ascendingOf {ids : List UInt64} {id : UInt64} : id ∈ ascendingOf ids ↔ id ∈ ids := by
  rw [← (List.mergeSort_perm ids fun a b => decide (a ≤ b)).mem_iff]
  exact (dedup_of_ascending (pairwise_mergeSort_ids ids)).2 id

theorem nodup_ascendingOf (ids : List UInt64) : (ascendingOf ids).Nodup :=
  (pairwise_ascendingOf ids).imp fun hlt => (UInt64.ne_of_lt hlt)

/-- The list is known by its members. -/
theorem eq_ascendingOf {ids ascending : List UInt64} (h : ascending.Pairwise (· < ·))
    (hmem : ∀ id, id ∈ ascending ↔ id ∈ ids) : ascending = ascendingOf ids :=
  h.eq_of_mem_iff (pairwise_ascendingOf ids) fun id => by rw [hmem, mem_ascendingOf]

/-- Every id has a dense id. -/
theorem exists_toDense?_ofIds {ids : List UInt64} {id : UInt64} (h : id ∈ ids) :
    ∃ dense < (ofIds ids).nodeCount, (ofIds ids).toDense? id = some dense := by
  rw [ofIds_eq, nodeCount_ofAscending]
  exact exists_toDense?_ofAscending (nodup_ascendingOf ids) (mem_ascendingOf.mpr h)

/-- What is found is a place. -/
theorem dense_lt_ofIds {ids : List UInt64} {id : UInt64} {dense : Nat}
    (h : (ofIds ids).toDense? id = some dense) : dense < (ofIds ids).nodeCount := by
  rw [ofIds_eq, toDense?_ofAscending (nodup_ascendingOf ids)] at h
  rw [ofIds_eq, nodeCount_ofAscending]
  exact (List.getElem?_eq_some_iff.mp h).1

end IdMap

/-! ## Collected ids -/

/-- It makes no difference whether ids are collected one by one or sorted together. -/
theorem IdCollector.build_eq_ofIds (ids : List UInt64) :
    (ids.foldl IdCollector.add {}).build = IdMap.ofIds ids := by
  have hmem : ∀ (c : IdCollector) (id : UInt64),
      id ∈ (ids.foldl IdCollector.add c).ids ↔ id ∈ ids ∨ id ∈ c.ids := by
    induction ids with
    | nil => simp
    | cons first ids ih =>
      intro c id
      rw [List.foldl_cons, ih, add, Std.HashSet.mem_insert, List.mem_cons, beq_iff_eq]
      tauto
  rw [build, IdMap.ofIds_eq]
  congr 1
  refine IdMap.eq_ascendingOf ?_ fun id => ?_
  · -- what is collected occurs once, so that what ascends does so strictly
    have hdistinct := (ids.foldl IdCollector.add {}).ids.distinct_toList
    have hnodup : ((ids.foldl IdCollector.add {}).ids.toList.mergeSort
        fun a b => decide (a ≤ b)).Nodup :=
      (List.mergeSort_perm _ _).nodup_iff.mpr (hdistinct.imp fun hne => by simpa using hne)
    exact ((pairwise_mergeSort_ids _).and hnodup).imp fun h => Std.lt_of_le_of_ne h.1 h.2
  · rw [(List.mergeSort_perm _ _).mem_iff, Std.HashSet.mem_toList, hmem]
    simp

end PackedGraph
