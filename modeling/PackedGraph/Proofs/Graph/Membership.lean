import PackedGraph.Proofs.Graph.Built
import PackedGraph.Proofs.Topology.Meet

/-!
# Asking for one relationship

Whether a relationship exists is found by moving a cursor forward to its target and comparing where it stops
with the target.  Targets ascend, so the cursor stops at the target if the node has it and behind it if not.
A cursor that finds nothing more answers with the largest word.  No node has that word as a target, but
asked for it the comparison says yes, so there alone the answer is wrong.

Main statements: `hasRelationship_iff_of_ne_largestWord` and `hasRelationship_largestWord`.
-/

namespace PackedGraph

/-- In an ascending list the first target that is not below another is that one exactly if it is in the list. -/
theorem head?_dropWhile_lt_iff {targets : List Nat} {target : Nat} (h : targets.Pairwise (· ≤ ·)) :
    (targets.dropWhile fun t => decide (t < target)).head? = some target ↔ target ∈ targets := by
  induction targets with
  | nil => simp
  | cons a rest ih =>
    obtain ⟨hhead, hrest⟩ := List.pairwise_cons.mp h
    by_cases hlt : a < target
    · rw [List.dropWhile_cons_of_pos (by simpa using hlt), ih hrest, List.mem_cons,
        or_iff_right (Nat.ne_of_gt hlt)]
    · rw [List.dropWhile_cons_of_neg (by simpa using hlt), List.head?_cons, Option.some.injEq, List.mem_cons]
      refine ⟨fun heq => .inl heq.symm, fun hmem => ?_⟩
      rcases hmem with heq | hmem
      · exact heq.symm
      · exact Nat.le_antisymm (hhead target hmem) (Nat.le_of_not_lt hlt)

namespace Graph.Built

variable {g : Graph}

/-- A target of a node is one of its targets in some type. -/
theorem mem_targets_iff (h : g.Built) {node target : Nat} :
    target ∈ g.targets node ↔ ∃ type ∈ g.types, target ∈ type.relationships.targets node :=
  (h.perm_targets node).mem_iff.trans List.mem_flatMap

/-- The mark of the end is no target. -/
theorem ne_largestWord (h : g.Built) {node target : Nat} (htarget : target ∈ g.targets node) :
    target ≠ largestWord :=
  Nat.ne_of_lt ((h.target_lt htarget).trans_le (h.nodeCount_le htarget))

/-- What is asked for is compared with the first target that is not below it. -/
theorem hasRelationship_eq (h : g.Built) (source target : Nat) :
    g.hasRelationship source target =
      (((g.targets source).dropWhile fun t => decide (t < target)).head?.getD largestWord == target) := by
  have hshows : (g.cursor source).Shows (g.targets source) := h.shows_rebind rfl source
  rw [hasRelationship, (Cursor.advance_of_shows hshows target).1]

/-- Of everything but the mark of the end the answer is whether some type has it as a target. -/
theorem hasRelationship_iff_of_ne_largestWord (h : g.Built) {source target : Nat} (hne : target ≠ largestWord) :
    g.hasRelationship source target = true ↔ ∃ type ∈ g.types, target ∈ type.relationships.targets source := by
  rw [h.hasRelationship_eq, beq_iff_eq, ← h.mem_targets_iff, ← head?_dropWhile_lt_iff (h.ascending source),
    Option.getD_eq_iff]
  exact or_iff_left fun hend => hne hend.2.symm

/-- The mark of the end is always found, because everything is below it. -/
theorem hasRelationship_largestWord (h : g.Built) (source : Nat) : g.hasRelationship source largestWord = true := by
  have hnone : ((g.targets source).dropWhile fun t => decide (t < largestWord)) = [] :=
    List.dropWhile_eq_nil_iff.mpr fun target htarget =>
      decide_eq_true ((h.target_lt htarget).trans_le (h.nodeCount_le htarget))
  rw [h.hasRelationship_eq, hnone]
  rfl

end Graph.Built

/-- **Membership is answered rightly of all words but the last.**  For every graph that can be built, of any
number of types, a relationship to any target but the largest word is said to exist exactly if some type has
it.  A relationship to the largest word is always said to exist, although no type of any graph has one. -/
theorem relationship_exists_iff {g : Graph} (hg : g.Built) (source : Nat) :
    (∀ target ≠ largestWord,
      (g.hasRelationship source target = true ↔
        ∃ type ∈ g.types, target ∈ type.relationships.targets source)) ∧
    g.hasRelationship source largestWord = true ∧
    ∀ type ∈ g.types, largestWord ∉ type.relationships.targets source :=
  ⟨fun _ hne => hg.hasRelationship_iff_of_ne_largestWord hne, hg.hasRelationship_largestWord source,
    fun type htype hmem => hg.ne_largestWord (hg.mem_targets_iff.mpr ⟨type, htype, hmem⟩) rfl⟩

/-- A graph of two types: one leads twice from the first node to the second, and the other to the fourth. -/
theorem exists_fork : ∃ g : Graph, g.Built ∧ g.nodeCount = 4 ∧ g.types.length = 2 ∧ g.targets 0 = [1, 1, 3] := by
  have hnodes : (IdMap.identity 4).Valid := IdMap.valid_identity (by decide)
  obtain ⟨left, hleft, hcovers, -, -, hcounts⟩ := @Graph.exists_built_type (.identity 4)
    { concurrency := 1 } 0 [.add 0 1 none, .add 0 1 none] hnodes (by decide) (by decide) (by decide)
  obtain ⟨right, hright, hcovers', -, -, hcounts'⟩ := @Graph.exists_built_type (.identity 4)
    { concurrency := 1 } 0 [.add 0 3 none] hnodes (by decide) (by decide) (by decide)
  have hg := @Graph.built_ofTypes (.identity 4) [⟨"left", left⟩, ⟨"right", right⟩]
    (by simp [hleft, hright]) (by simp [hcovers, hcovers']) (by simp)
  refine ⟨_, hg, rfl, rfl, ?_⟩
  refine List.Perm.eq_of_pairwise (fun a b _ _ => Nat.le_antisymm) (hg.ascending 0) (by decide) ?_
  rw [List.perm_iff_count]
  intro target
  by_cases hlt : target < 4
  · rw [(hg.perm_targets 0).count_eq, List.flatMap_cons, List.flatMap_singleton, List.count_append]
    change (left.targets 0).count target + (right.targets 0).count target = _
    rw [hcounts 0 (by decide), hcounts' 0 (by decide)]
    revert hlt target
    decide
  · have hbound : ∀ target ∈ [1, 1, 3], target < 4 := by decide
    rw [List.count_eq_zero.mpr fun hmem => hlt (hg.target_lt hmem),
      List.count_eq_zero.mpr fun hmem => hlt (hbound target hmem)]

/-- Targets before, between and behind those that there are. -/
theorem relationship_exists_of_fork : ∃ g : Graph, g.Built ∧ g.targets 0 = [1, 1, 3] ∧
    (∃ type ∈ g.types, 3 ∈ type.relationships.targets 0) ∧ g.hasRelationship 0 3 = true ∧
    (∀ target ∈ [0, 2, 4, largestWord - 1], g.hasRelationship 0 target = false) ∧
    g.hasRelationship 0 largestWord = true := by
  obtain ⟨g, hg, -, -, htargets⟩ := exists_fork
  obtain ⟨hexists, hend, -⟩ := relationship_exists_iff hg 0
  have hthree : ∃ type ∈ g.types, 3 ∈ type.relationships.targets 0 :=
    hg.mem_targets_iff.mp (htargets ▸ by decide)
  refine ⟨g, hg, htargets, hthree, (hexists 3 (by decide)).mpr hthree, fun target htarget => ?_, hend⟩
  have hne : ∀ target ∈ [0, 2, 4, largestWord - 1], target ≠ largestWord ∧ target ∉ [1, 1, 3] := by decide
  rw [Bool.eq_false_iff, ne_eq, hexists target (hne target htarget).1, ← hg.mem_targets_iff, htargets]
  exact (hne target htarget).2

/-- The first node of that graph has three relationships, none of them to the largest word, and is said to
have one. -/
theorem largest_word_said_to_be_target : ∃ g : Graph, g.Built ∧ 0 < g.nodeCount ∧ g.targets 0 = [1, 1, 3] ∧
    ¬ (g.hasRelationship 0 largestWord = true ↔
      ∃ type ∈ g.types, largestWord ∈ type.relationships.targets 0) := by
  obtain ⟨g, hg, hcount, -, htargets⟩ := exists_fork
  refine ⟨g, hg, hcount ▸ by decide, htargets, fun hiff => ?_⟩
  have hmem := hg.mem_targets_iff.mpr (hiff.mp (hg.hasRelationship_largestWord 0))
  exact hg.ne_largestWord hmem rfl

end PackedGraph
