import Mathlib.Data.List.Forall2
import PackedGraph.Proofs.Graph.IdMap
import PackedGraph.Proofs.Graph.Relationships
import PackedGraph.Proofs.Ingest.Sorting
import PackedGraph.Proofs.Topology.Adjacency

/-!
# Rows of a packed partition

A *row* is what a merge makes of the relationships of a node: targets with weights, in order of the
targets.  A packed partition and the packed nodes *represent* a list of rows: the targets are found in
the pages by degree and address, and the weights lie one row behind the other.

Main statements: `PackedPartition.Represents.foldl_push` and `PackedNodes.Represents.append`.
-/

namespace PackedGraph

/-! ## Rows -/

/-- The targets of a row as words. -/
def wordsOf (row : List (Nat × Float)) : List UInt64 := (row.map Prod.fst).map UInt64.ofNat

theorem toNat_ofNat_of_lt {target : Nat} (h : target < largestWord) :
    (UInt64.ofNat target).toNat = target :=
  UInt64.toNat_ofNat_of_lt' (Nat.lt_trans h (by decide))

/-- A row is what an aggregation makes of the relationships of a node. -/
structure Aggregation.MakesRow (aggregation : Aggregation) (relationships : List StoredRelationship)
    (node : Nat) (row : List (Nat × Float)) : Prop where
  /-- The targets ascend. -/
  ascending : (row.map Prod.fst).Pairwise (· ≤ ·)
  /-- They ascend strictly, unless all are kept. -/
  strict : aggregation ≠ .none → (row.map Prod.fst).Pairwise (· < ·)
  /-- Towards each target there is what remains of the relationships. -/
  weights : ∀ target, weightsTo target row = aggregation.kept (weightsBetween node target relationships)

/-- Where all relationships are kept and arrive in the order of their targets, the row is what has arrived. -/
theorem Aggregation.MakesRow.eq_ownOf {relationships : List StoredRelationship} {node : Nat}
    {row : List (Nat × Float)} (h : Aggregation.none.MakesRow relationships node row)
    (hsorted : ((ownOf node relationships).map Prod.fst).Pairwise (· ≤ ·)) : row = ownOf node relationships := by
  refine eq_of_weightsTo h.ascending hsorted fun target => ?_
  rw [h.weights, Aggregation.kept_none, weightsTo_ownOf]

/-- Where no pair of nodes arrives twice, a row has what has arrived, although only one of parallel relationships
would be kept. -/
theorem Aggregation.MakesRow.mem_iff_of_distinct {relationships : List StoredRelationship} {node : Nat}
    {row : List (Nat × Float)} (h : Aggregation.single.MakesRow relationships node row)
    (hdistinct : (relationships.map fun r => (r.source, r.target)).Nodup) (target : Nat) (weight : Float) :
    (target, weight) ∈ row ↔ ⟨node, target, weight⟩ ∈ relationships := by
  have hone : (weightsBetween node target relationships).length ≤ 1 := by
    have hcount := List.nodup_iff_count_le_one.mp hdistinct (node, target)
    rw [List.count, List.countP_map] at hcount
    rw [length_weightsBetween]
    exact hcount
  have hkept : Aggregation.single.kept (weightsBetween node target relationships) =
      weightsBetween node target relationships := by
    match weightsBetween node target relationships, hone with
    | [], _ => rfl
    | [_], _ => rfl
  calc (target, weight) ∈ row
    _ ↔ weight ∈ weightsTo target row := by simp [weightsTo]
    _ ↔ weight ∈ weightsBetween node target relationships := by rw [h.weights, hkept]
    _ ↔ ⟨node, target, weight⟩ ∈ relationships := by
      simp only [weightsBetween, List.mem_map, List.mem_filter, Bool.and_eq_true, beq_iff_eq]
      constructor
      · rintro ⟨r, ⟨hr, rfl, rfl⟩, rfl⟩
        exact hr
      · exact fun hmem => ⟨_, ⟨hmem, rfl, rfl⟩, rfl⟩

namespace Aggregation

variable {aggregation : Aggregation} {relationships : List StoredRelationship} {node : Nat}
  {row : List (Nat × Float)}

/-- A merge of the sorted relationships makes the row of a node. -/
theorem makesRow_of_merge
    (h : aggregation.merge (ownOf node (relationships.mergeSort StoredRelationship.le)) = .ok row) :
    aggregation.MakesRow relationships node row := by
  obtain ⟨hascending, hstrict, hweights⟩ := merge_spec (pairwise_ownOf_mergeSort node relationships) h
  refine ⟨hascending, hstrict, fun target => ?_⟩
  rw [hweights, weightsTo_ownOf_mergeSort]

/-- The targets of a row are targets of relationships. -/
theorem MakesRow.target_lt (h : aggregation.MakesRow relationships node row) {bound : Nat}
    (hbound : ∀ r ∈ relationships, r.target < bound) : ∀ target ∈ row.map Prod.fst, target < bound := by
  intro target htarget
  by_contra hge
  have hnone : weightsBetween node target relationships = [] := by
    rw [weightsBetween, List.filter_eq_nil_iff.mpr]
    · rfl
    · intro r hr
      have := hbound r hr
      simp only [Bool.and_eq_true, beq_iff_eq]
      omega
  have hweights := h.weights target
  rw [hnone, kept, weightsTo_eq_nil_iff] at hweights
  obtain ⟨x, hx, heq⟩ := List.mem_map.mp htarget
  exact hweights x hx heq

/-- A row is no longer than the relationships that it is made of. -/
theorem MakesRow.length_le (h : aggregation.MakesRow relationships node row) :
    row.length ≤ (ownOf node relationships).length := by
  have hlength : ∀ xs : List (Nat × Float), xs.length = (xs.map Prod.fst).length :=
    fun xs => (List.length_map Prod.fst).symm
  rw [hlength row, hlength (ownOf node relationships)]
  apply List.Subperm.length_le
  rw [List.subperm_ext_iff]
  intro target _
  rw [← length_weightsTo, ← length_weightsTo, weightsTo_ownOf, h.weights, length_kept_eq]
  split
  · exact Nat.le_refl _
  · split <;> omega

/-- The words of a row stand for its targets. -/
theorem MakesRow.map_toNat_wordsOf (h : aggregation.MakesRow relationships node row)
    (hbound : ∀ r ∈ relationships, r.target < largestWord) :
    (wordsOf row).map UInt64.toNat = row.map Prod.fst := by
  rw [wordsOf, List.map_map]
  conv_rhs => rw [← List.map_id (row.map Prod.fst)]
  exact List.map_congr_left fun target htarget => toNat_ofNat_of_lt (h.target_lt hbound target htarget)

/-- The words of a row can be compressed. -/
theorem MakesRow.ascendsFrom (h : aggregation.MakesRow relationships node row)
    (hbound : ∀ r ∈ relationships, r.target < largestWord) : Varint.AscendsFrom 0 (wordsOf row) := by
  have hlt := h.target_lt hbound
  refine ⟨List.pairwise_cons.mpr ⟨fun word _ => UInt64.le_iff_toNat_le.mpr (Nat.zero_le _), ?_⟩, ?_⟩
  · rw [wordsOf, List.pairwise_map]
    refine h.ascending.imp_of_mem fun {a b} ha hb hle => ?_
    rw [UInt64.le_iff_toNat_le, toNat_ofNat_of_lt (hlt a ha), toNat_ofNat_of_lt (hlt b hb)]
    exact hle
  · intro habsent
    obtain ⟨target, htarget, heq⟩ := List.mem_map.mp habsent
    have hword := congrArg UInt64.toNat heq
    rw [toNat_ofNat_of_lt (hlt target htarget)] at hword
    exact Nat.ne_of_lt (hlt target htarget) hword

end Aggregation

/-! ## Packed partitions -/

namespace PackedPartition

/-- The pages, degrees and addresses pack the targets of the rows, and the weights are theirs. -/
structure Represents (p : PackedPartition) (rows : List (List (Nat × Float))) : Prop where
  /-- The compressor has written the targets, row by row. -/
  compressor_eq : p.compressor = (Compressor.new bytesPerPage).writeAll (rows.map wordsOf)
  /-- It is ready for more. -/
  sound : p.compressor.Sound
  /-- The targets are packed. -/
  packs : Packs p.compressor.stored p.degrees p.addresses (rows.map wordsOf)
  /-- The weights of a row lie behind those of the row before. -/
  weights_eq : p.weights.toList = rows.flatten.map Prod.snd
  /-- The mark says whether a row has a target twice. -/
  parallel_eq : p.parallel = rows.any fun row => hasRepeat (row.map Prod.fst)

variable {p : PackedPartition} {rows : List (List (Nat × Float))}

theorem represents_empty : empty.Represents [] :=
  ⟨rfl, Compressor.sound_new (by decide), Packs.empty _, rfl, rfl⟩

theorem Represents.push (h : p.Represents rows) {row : List (Nat × Float)}
    (hrow : Varint.AscendsFrom 0 (wordsOf row)) : (p.push row).Represents (rows ++ [row]) := by
  refine ⟨?_, Compressor.sound_compress h.sound _, ?_, ?_, ?_⟩
  · rw [List.map_append, List.map_singleton, Compressor.writeAll_concat, ← h.compressor_eq]
    rfl
  · rw [List.map_append, List.map_singleton]
    exact Packs.push h.sound h.packs hrow
  · have hweights : ∀ (row : List (Nat × Float)) (weights : Array Float),
        (row.foldl (fun weights r => weights.push r.2) weights).toList =
          weights.toList ++ row.map Prod.snd := by
      intro row
      induction row with
      | nil => exact fun _ => (List.append_nil _).symm
      | cons x row ih =>
        intro weights
        rw [List.foldl_cons, ih, Array.toList_push, List.append_assoc, List.map_cons]
        rfl
    rw [List.flatten_append, List.map_append, ← h.weights_eq, List.flatten_singleton]
    exact hweights row p.weights
  · rw [List.any_append, ← h.parallel_eq, List.any_cons, List.any_nil, Bool.or_false]
    rfl

theorem Represents.foldl_push (h : p.Represents rows) {more : List (List (Nat × Float))}
    (hmore : ∀ row ∈ more, Varint.AscendsFrom 0 (wordsOf row)) :
    (more.foldl PackedPartition.push p).Represents (rows ++ more) := by
  induction more generalizing p rows with
  | nil =>
    rw [List.append_nil]
    exact h
  | cons row more ih =>
    have := ih (h.push (hmore row List.mem_cons_self)) fun other hother =>
      hmore other (List.mem_cons_of_mem _ hother)
    rw [List.append_assoc] at this
    exact this

end PackedPartition

/-! ## All nodes -/

namespace PackedNodes

/-- The same for the partitions that have been put behind each other. -/
structure Represents (all : PackedNodes) (rows : List (List (Nat × Float))) : Prop where
  /-- The targets are packed. -/
  packs : Packs all.pages all.degrees all.addresses (rows.map wordsOf)
  /-- The weights of a row lie behind those of the row before. -/
  weights_eq : all.weights.toList = rows.flatten.map Prod.snd
  /-- The mark says whether a row has a target twice. -/
  parallel_eq : all.parallel = rows.any fun row => hasRepeat (row.map Prod.fst)

theorem represents_empty : empty.Represents [] := ⟨Packs.empty _, rfl, rfl⟩

/-- A partition more. -/
theorem Represents.append {all : PackedNodes} {rows : List (List (Nat × Float))}
    (h : all.Represents rows)
    {next : PackedPartition} {more : List (List (Nat × Float))} (hnext : next.Represents more) :
    (all.append next).Represents (rows ++ more) := by
  refine ⟨?_, ?_, ?_⟩
  · rw [List.map_append]
    exact h.packs.append (hnext.packs.mono (Compressor.keeps_finish _))
  · rw [PackedNodes.append, Array.toList_append, h.weights_eq, hnext.weights_eq,
      List.flatten_append,
      List.map_append]
  · rw [PackedNodes.append, h.parallel_eq, hnext.parallel_eq, List.any_append]

/-- All partitions. -/
theorem Represents.foldl_append {packed : List PackedPartition}
    {rowss : List (List (List (Nat × Float)))}
    (hpacked : List.Forall₂ PackedPartition.Represents packed rowss) {all : PackedNodes}
    {rows : List (List (Nat × Float))} (h : all.Represents rows) :
    (packed.foldl PackedNodes.append all).Represents (rows ++ rowss.flatten) := by
  induction hpacked generalizing all rows with
  | nil =>
    rw [List.flatten_nil, List.append_nil]
    exact h
  | cons hnext _ ih =>
    rw [List.flatten_cons, ← List.append_assoc]
    exact ih (h.append hnext)

/-! ## What can be read -/

variable {all : PackedNodes} {rows : List (List (Nat × Float))} {s : RelationshipSettings}

theorem Represents.holds (h : all.Represents rows) :
    (all.relationships s).adjacency.Holds (rows.map wordsOf) := h.packs.holds

theorem Represents.relationshipCount_eq (h : all.Represents rows) :
    (all.relationships s).adjacency.relationshipCount = (rows.map List.length).sum := by
  rw [h.holds.relationshipCount_eq, List.map_map]
  congr 2
  funext row
  simp [wordsOf]

/-- The targets of a node are those of its row. -/
theorem Represents.targets_eq (h : all.Represents rows) {node : Nat} {row : List (Nat × Float)}
    (hrow : rows[node]? = some row) (hwords : (wordsOf row).map UInt64.toNat = row.map Prod.fst) :
    (all.relationships s).targets node = row.map Prod.fst := by
  rw [Relationships.targets_of_holds h.holds, rowOf, List.getElem?_map, hrow, Option.map_some,
    Option.getD_some, hwords]

/-- The degree of a node is the length of its row. -/
theorem Represents.degree_eq (h : all.Represents rows) {node : Nat} {row : List (Nat × Float)}
    (hrow : rows[node]? = some row) : (all.relationships s).adjacency.degree node = row.length := by
  rw [h.holds.degree_eq, List.getElem?_map, hrow, Option.map_some, Option.getD_some, wordsOf,
    List.length_map,
    List.length_map]

/-- The weight at a place is that of the row. -/
theorem Represents.weight_eq (h : all.Represents rows) {node index : Nat} {row : List (Nat × Float)}
    (hrow : rows[node]? = some row) (hindex : index < row.length) :
    (Weights.ofDegrees all.weights all.degrees).get? node index = some row[index].2 := by
  have hvalues : all.weights.toList = (rows.map (List.map Prod.snd)).flatten := by
    rw [h.weights_eq, List.map_flatten]
  have hdegrees : all.degrees.toList = (rows.map (List.map Prod.snd)).map List.length := by
    rw [h.packs.degrees_eq, List.map_map, List.map_map]
    congr 1
    funext row
    simp [wordsOf]
  have hweights : (rows.map (List.map Prod.snd))[node]? = some (row.map Prod.snd) := by
    rw [List.getElem?_map, hrow, Option.map_some]
  rw [Weights.get?_ofDegrees hvalues hdegrees hweights (by rw [List.length_map]; exact hindex),
    List.getElem_map]

/-- The weights at the places of a target, in order, are those of the row. -/
theorem Represents.weights_at (h : all.Represents rows) {node : Nat} {row : List (Nat × Float)}
    (hrow : rows[node]? = some row) (target : Nat) :
    ((row.map Prod.fst).zipIdx.filter (·.1 == target)).map
        (fun place => (Weights.ofDegrees all.weights all.degrees).get? node place.2) =
      (weightsTo target row).map some := by
  have hplaces : ∀ entry ∈ row.zipIdx,
      (Weights.ofDegrees all.weights all.degrees).get? node entry.2 = some entry.1.2 := by
    intro entry hentry
    obtain ⟨hindex, heq⟩ := List.getElem?_eq_some_iff.mp (List.mem_zipIdx_iff_getElem?.mp hentry)
    rw [h.weight_eq hrow hindex, heq]
  rw [List.zipIdx_map, List.filter_map, List.map_map]
  calc _ = (row.zipIdx.filter fun entry => entry.1.1 == target).map fun entry => some entry.1.2 :=
        List.map_congr_left fun entry hentry => hplaces entry (List.mem_filter.mp hentry).1
    _ = ((row.zipIdx.map Prod.fst).filter (·.1 == target)).map fun entry => some entry.2 := by
        rw [List.filter_map, List.map_map]
        rfl
    _ = (weightsTo target row).map some := by
        rw [List.zipIdx_map_fst, weightsTo, List.map_map]
        rfl

/-- There are as many weights as relationships. -/
theorem Represents.size_weights (h : all.Represents rows) :
    (Weights.ofDegrees all.weights all.degrees).values.size =
      (all.relationships s).adjacency.relationshipCount := by
  rw [h.relationshipCount_eq, Weights.ofDegrees, Paged.size_ofArray, ← Array.length_toList,
    h.weights_eq,
    List.length_map, List.length_flatten]

end PackedNodes

end PackedGraph
