import Mathlib.Data.List.Forall2
import Mathlib.Data.List.TakeDrop
import PackedGraph.Proofs.Ingest.Aggregation
import PackedGraph.Proofs.Workers.Pool

/-!
# From a bucket to the rows of its nodes

A bucket is sorted by source and target, and the nodes of the partition take their relationships from
the front one after the other.  As sorting is stable, what a node takes is its part of the bucket, and
for every target the relationships come in the order in which they lie in the bucket.

Main statements: `weightsTo_ownOf_mergeSort` and `PackedPartition.packNodes_eq`.
-/

namespace PackedGraph

/-! ## A stable sort -/

/-- Entries that are all in order with each other keep their order when a list is sorted. -/
theorem filter_mergeSort {α : Type} {le : α → α → Bool} (htrans : ∀ a b c, le a b → le b c → le a c)
    (htotal : ∀ a b, le a b || le b a) {wanted : α → Bool} (xs : List α)
    (hle : ∀ a b, wanted a → wanted b → le a b) : (xs.mergeSort le).filter wanted = xs.filter wanted := by
  have hpairwise : (xs.filter wanted).Pairwise (le · ·) :=
    List.pairwise_of_forall_mem_list fun a ha b hb =>
      hle a b (List.mem_filter.mp ha).2 (List.mem_filter.mp hb).2
  have hsublist : (xs.filter wanted).Sublist (xs.mergeSort le) :=
    List.sublist_mergeSort htrans htotal hpairwise List.filter_sublist
  have hfiltered := hsublist.filter wanted
  simp only [List.filter_filter, Bool.and_self] at hfiltered
  exact (hfiltered.eq_of_length ((List.mergeSort_perm xs le).filter wanted).length_eq.symm).symm

/-! ## Equal neighbours -/

/-- Of a list in order, keeping one of equal neighbours leaves the same members, in strict order. -/
theorem dedup_of_ascending {α : Type} [DecidableEq α] [LE α] [LT α] [Std.IsLinearOrder α]
    [Std.LawfulOrderLT α] {found : List α} (h : found.Pairwise (· ≤ ·)) :
    let kept := found.foldr (fun a rest => if rest.head? = some a then rest else a :: rest) []
    kept.Pairwise (· < ·) ∧ ∀ a, a ∈ kept ↔ a ∈ found := by
  induction found with
  | nil => simp
  | cons a found ih =>
    obtain ⟨hhead, hrest⟩ := List.pairwise_cons.mp h
    obtain ⟨hstrict, hmem⟩ := ih hrest
    rw [List.foldr_cons]
    generalize found.foldr _ [] = kept at hstrict hmem ⊢
    by_cases heq : kept.head? = some a
    · simp only [heq, if_true]
      refine ⟨hstrict, fun b => ?_⟩
      have ha : a ∈ kept := List.mem_of_head? heq
      rw [hmem, List.mem_cons]
      constructor
      · exact .inr
      · rintro (rfl | hb)
        · exact (hmem b).mp ha
        · exact hb
    · simp only [heq, if_false]
      refine ⟨List.pairwise_cons.mpr ⟨fun b hb => ?_, hstrict⟩, fun b => by simp [hmem]⟩
      -- the first one that is kept is larger, and the others are larger still
      have hle : ∀ c ∈ kept, a ≤ c := fun c hc => hhead c ((hmem c).mp hc)
      cases kept with
      | nil => exact absurd hb List.not_mem_nil
      | cons first others =>
        have hne : a ≠ first := fun hsame => heq (by rw [hsame, List.head?_cons])
        have hfirst : a < first := Std.lt_of_le_of_ne (hle first List.mem_cons_self) hne
        rcases List.mem_cons.mp hb with rfl | hb
        · exact hfirst
        · exact Std.lt_trans hfirst ((List.pairwise_cons.mp hstrict).1 b hb)

namespace StoredRelationship

theorem le_iff {a b : StoredRelationship} :
    a.le b = true ↔ a.source < b.source ∨ a.source = b.source ∧ a.target ≤ b.target := by
  simp [le]

theorem le_trans (a b c : StoredRelationship) (hab : a.le b = true) (hbc : b.le c = true) :
    a.le c = true := by
  rw [le_iff] at *
  omega

theorem le_total (a b : StoredRelationship) : (a.le b || b.le a) = true := by
  rw [Bool.or_eq_true, le_iff, le_iff]
  omega

end StoredRelationship

/-! ## The relationships of a node -/

/-- The relationships of a node, by target and weight. -/
def ownOf (node : Nat) (relationships : List StoredRelationship) : List (Nat × Float) :=
  (relationships.filter (·.source == node)).map fun r => (r.target, r.weight)

/-- The weights between two nodes, in order. -/
def weightsBetween (source target : Nat) (relationships : List StoredRelationship) : List Float :=
  (relationships.filter fun r => r.source == source && r.target == target).map (·.weight)

theorem length_weightsBetween (source target : Nat) (relationships : List StoredRelationship) :
    (weightsBetween source target relationships).length =
      relationships.countP fun r => r.source == source && r.target == target := by
  rw [weightsBetween, List.length_map, List.countP_eq_length_filter]

theorem weightsTo_ownOf (node target : Nat) (relationships : List StoredRelationship) :
    weightsTo target (ownOf node relationships) = weightsBetween node target relationships := by
  rw [weightsTo, ownOf, weightsBetween, List.filter_map, List.map_map, List.filter_filter]
  congr 1
  refine List.filter_congr fun r _ => ?_
  rw [Bool.and_comm]
  rfl

/-- Relationships of another node do not matter. -/
theorem ownOf_filter_ne {node other : Nat} (h : other ≠ node)
    (relationships : List StoredRelationship) :
    ownOf other (relationships.filter (·.source != node)) = ownOf other relationships := by
  rw [ownOf, ownOf, List.filter_filter]
  congr 1
  refine List.filter_congr fun r _ => ?_
  by_cases heq : r.source = other
  · simp [heq, h]
  · simp [heq]

/-- In a sorted bucket the relationships of a node are in order of their targets. -/
theorem pairwise_ownOf_mergeSort (node : Nat) (bucket : List StoredRelationship) :
    (ownOf node (bucket.mergeSort StoredRelationship.le)).Pairwise (·.1 ≤ ·.1) := by
  have hsorted := List.pairwise_mergeSort StoredRelationship.le_trans StoredRelationship.le_total bucket
  rw [ownOf, List.pairwise_map]
  refine (hsorted.filter (·.source == node)).imp_of_mem fun {a b} ha hb hle => ?_
  have hasource := (List.mem_filter.mp ha).2
  have hbsource := (List.mem_filter.mp hb).2
  rw [beq_iff_eq] at hasource hbsource
  rw [StoredRelationship.le_iff] at hle
  simp only
  omega

/-- Between two nodes they are in the order of the bucket. -/
theorem weightsTo_ownOf_mergeSort (node target : Nat) (bucket : List StoredRelationship) :
    weightsTo target (ownOf node (bucket.mergeSort StoredRelationship.le)) =
      weightsBetween node target bucket := by
  rw [weightsTo_ownOf, weightsBetween, weightsBetween, filter_mergeSort StoredRelationship.le_trans
    StoredRelationship.le_total]
  intro a b ha hb
  simp only [Bool.and_eq_true, beq_iff_eq] at ha hb
  rw [StoredRelationship.le_iff]
  omega

/-! ## Taking from the front -/

/-- The relationships of the first node are in front. -/
theorem span_source {node : Nat} {relationships : List StoredRelationship}
    (hsorted : relationships.Pairwise (·.source ≤ ·.source))
    (hle : ∀ r ∈ relationships, node ≤ r.source) :
    relationships.span (·.source == node) =
      (relationships.filter (·.source == node), relationships.filter (·.source != node)) := by
  rw [List.span_eq_takeWhile_dropWhile]
  induction relationships with
  | nil => rfl
  | cons r relationships ih =>
    obtain ⟨hbehind, hsorted⟩ := List.pairwise_cons.mp hsorted
    by_cases heq : r.source = node
    · have hrest := ih hsorted fun other hother => hle other (List.mem_cons_of_mem _ hother)
      rw [Prod.mk.injEq] at hrest ⊢
      rw [List.takeWhile_cons_of_pos (by simpa using heq),
        List.dropWhile_cons_of_pos (by simpa using heq),
        List.filter_cons_of_pos (by simpa using heq), List.filter_cons_of_neg (by simpa using heq)]
      exact ⟨congrArg (r :: ·) hrest.1, hrest.2⟩
    · have hnone : ∀ other ∈ r :: relationships, other.source ≠ node := by
        intro other hother
        have hr := hle r List.mem_cons_self
        rcases List.mem_cons.mp hother with rfl | hother
        · exact heq
        · have := hbehind other hother
          omega
      rw [List.takeWhile_cons_of_neg (by simpa using heq),
        List.dropWhile_cons_of_neg (by simpa using heq),
        List.filter_eq_nil_iff.mpr fun other hother => by simpa using hnone other hother,
        List.filter_eq_self.mpr fun other hother => by simpa using hnone other hother]

/-- The merged relationships of a node, or the fault that names the pair that is refused. -/
def mergeOwn (nodes : IdMap) (aggregation : Aggregation) (relationships : List StoredRelationship)
    (node : Nat) : Except Fault (List (Nat × Float)) :=
  (aggregation.merge (ownOf node relationships)).mapError fun target =>
    .duplicateRelationship (nodes.toExternal node) (nodes.toExternal target)

theorem mergeOwn_eq_ok_iff {nodes : IdMap} {aggregation : Aggregation}
    {relationships : List StoredRelationship} {node : Nat} {row : List (Nat × Float)} :
    mergeOwn nodes aggregation relationships node = .ok row ↔
      aggregation.merge (ownOf node relationships) = .ok row := by
  rw [mergeOwn]
  cases aggregation.merge (ownOf node relationships) <;> simp [Except.mapError]

namespace PackedPartition

/-- Packing the nodes of a partition is merging the relationships of each and pushing the rows. -/
theorem packNodes_eq (nodes : IdMap) (aggregation : Aggregation) {members : List Nat}
    (hmembers : members.Pairwise (· < ·)) {relationships : List StoredRelationship}
    (hsorted : relationships.Pairwise (·.source ≤ ·.source))
    (hsource : ∀ r ∈ relationships, r.source ∈ members) (before : PackedPartition) :
    packNodes nodes aggregation members relationships before =
      (members.mapM (mergeOwn nodes aggregation relationships)).map fun rows => rows.foldl push before := by
  induction members generalizing relationships before with
  | nil => rfl
  | cons node members ih =>
    obtain ⟨hlater, hmembers⟩ := List.pairwise_cons.mp hmembers
    have hle : ∀ r ∈ relationships, node ≤ r.source := by
      intro r hr
      rcases List.mem_cons.mp (hsource r hr) with heq | hmem
      · omega
      · exact Nat.le_of_lt (hlater _ hmem)
    have hothers : ∀ r ∈ relationships.filter (·.source != node), r.source ∈ members := by
      intro r hr
      obtain ⟨hr, hne⟩ := List.mem_filter.mp hr
      exact (List.mem_cons.mp (hsource r hr)).resolve_left (by simpa using hne)
    -- The later nodes do not need the relationships of this one in front of theirs.
    have hrest : members.mapM (mergeOwn nodes aggregation (relationships.filter (·.source != node))) =
        members.mapM (mergeOwn nodes aggregation relationships) :=
      mapM_congr fun other hother => by
        rw [mergeOwn, mergeOwn, ownOf_filter_ne (Nat.ne_of_gt (hlater other hother))]
    rw [packNodes, span_source hsorted hle, List.mapM_cons, mergeOwn]
    simp only
    rw [← ownOf]
    cases aggregation.merge (ownOf node relationships) with
    | error target => rfl
    | ok row =>
      simp only
      rw [ih hmembers (hsorted.filter _) hothers, hrest]
      cases members.mapM (mergeOwn nodes aggregation relationships) <;> rfl

end PackedPartition

end PackedGraph
