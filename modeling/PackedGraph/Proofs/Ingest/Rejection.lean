import PackedGraph.Proofs.Graph.Built

/-!
# Refusing parallel relationships

Where parallel relationships are refused, a build names one pair of nodes.  Every worker stops at the
first pair that is repeated among the relationships of its partition, and of several workers that have
stopped the first decides.  As the partitions follow each other, this is the least pair that is repeated
at all, by source and then by target: neither the order of arrival nor the way through batches and
partitions matters.

Main statement: `build_refuses_least_repeat`.
-/

namespace PackedGraph

/-! ## One node -/

/-- Towards targets that ascend strictly there is one weight each. -/
theorem length_weightsTo_le_one {own : List (Nat × Float)} (h : own.Pairwise (·.1 < ·.1))
    (target : Nat) : (weightsTo target own).length ≤ 1 := by
  have hnodup : (own.map Prod.fst).Nodup := (List.pairwise_map.mpr h).imp Nat.ne_of_lt
  rw [length_weightsTo]
  exact List.nodup_iff_count_le_one.mp hnodup target

namespace Aggregation

/-- All relationships of a node are taken, or the least target that is repeated is named. -/
theorem foldlM_take_reject {own : List (Nat × Float)} (hsorted : own.Pairwise (·.1 ≤ ·.1)) :
    (own.foldlM reject.take [] = .ok own.reverse ∧ own.Pairwise (·.1 < ·.1)) ∨
      ∃ target, own.foldlM reject.take [] = .error target ∧ 2 ≤ (weightsTo target own).length ∧
        ∀ other < target, (weightsTo other own).length ≤ 1 := by
  induction own using List.reverseRecOn with
  | nil => exact Or.inl ⟨rfl, .nil⟩
  | append_singleton own next ih =>
    obtain ⟨target, weight⟩ := next
    obtain ⟨hown, -, hle⟩ := List.pairwise_append.mp hsorted
    have hle : ∀ x ∈ own, x.1 ≤ target := fun x hx => hle x hx _ (List.mem_singleton_self _)
    -- A target in front of the next one occurs as often as before.
    have hsame : ∀ other < target,
        weightsTo other (own ++ [(target, weight)]) = weightsTo other own := fun other hother => by
      rw [weightsTo_append, weightsTo_cons_of_ne (Nat.ne_of_gt hother)]
      exact List.append_nil _
    rw [foldlM_take_concat]
    rcases ih hown with ⟨htaken, hstrict⟩ | ⟨first, herror, htwice, hbefore⟩
    · rw [htaken]
      rcases List.eq_nil_or_concat own with rfl | ⟨init, ⟨latest, current⟩, rfl⟩
      · exact Or.inl ⟨rfl, List.pairwise_singleton _ _⟩
      · rw [List.concat_eq_append, List.reverse_concat] at *
        obtain ⟨hinit, -, hlt⟩ := List.pairwise_append.mp hstrict
        by_cases heq : latest = target
        · subst heq
          refine Or.inr ⟨latest, ?_, ?_, fun other hother => ?_⟩
          · simp [Except.bind, take]
          · rw [weightsTo_append, weightsTo_append, List.length_append, List.length_append,
              weightsTo_cons_self, weightsTo_cons_self]
            simp only [List.length_cons]
            omega
          · rw [hsame other hother]
            exact length_weightsTo_le_one hstrict other
        · refine Or.inl ⟨?_, ?_⟩
          · simp [Except.bind, take, heq, initial]
          · have hlatest : latest < target :=
              Nat.lt_of_le_of_ne (hle _ (List.mem_append_right _ (List.mem_singleton_self _))) heq
            refine List.pairwise_append.mpr ⟨hstrict, List.pairwise_singleton _ _, fun x hx y hy => ?_⟩
            obtain rfl := List.mem_singleton.mp hy
            rcases List.mem_append.mp hx with hx | hx
            · exact Nat.lt_trans (hlt x hx _ (List.mem_singleton_self _)) hlatest
            · obtain rfl := List.mem_singleton.mp hx
              exact hlatest
    · -- The one that has been named is no larger than the next target.
      have hfirst : first ≤ target := by
        have hsome : weightsTo first own ≠ [] := fun hnil => by simp [hnil] at htwice
        rw [ne_eq, weightsTo_eq_nil_iff] at hsome
        push Not at hsome
        obtain ⟨x, hx, rfl⟩ := hsome
        exact hle x hx
      refine Or.inr ⟨first, by rw [herror]; rfl, ?_, fun other hother => ?_⟩
      · rw [weightsTo_append, List.length_append]
        omega
      · rw [hsame other (Nat.lt_of_lt_of_le hother hfirst)]
        exact hbefore other hother

end Aggregation

/-- The relationships of a node are merged, or the pair with the least target that is repeated is named. -/
theorem mergeOwn_reject (nodes : IdMap) (relationships : List StoredRelationship) (node : Nat) :
    let merged := mergeOwn nodes .reject (relationships.mergeSort StoredRelationship.le) node
    (∃ row, merged = .ok row) ∧ (∀ target, (weightsBetween node target relationships).length ≤ 1) ∨
      ∃ target, merged = .error
          (.duplicateRelationship (nodes.toExternal node) (nodes.toExternal target)) ∧
        2 ≤ (weightsBetween node target relationships).length ∧
        ∀ other < target, (weightsBetween node other relationships).length ≤ 1 := by
  have hsorted := pairwise_ownOf_mergeSort node relationships
  simp only [mergeOwn, Aggregation.merge]
  rcases Aggregation.foldlM_take_reject hsorted with ⟨htaken, hstrict⟩ | ⟨target, herror, htwice, hbefore⟩
  · refine Or.inl ⟨⟨_, by rw [htaken]; rfl⟩, fun target => ?_⟩
    rw [← weightsTo_ownOf_mergeSort]
    exact length_weightsTo_le_one hstrict target
  · refine Or.inr ⟨target, by rw [herror]; rfl, ?_, fun other hother => ?_⟩
    · rw [← weightsTo_ownOf_mergeSort]
      exact htwice
    · rw [← weightsTo_ownOf_mergeSort]
      exact hbefore other hother

/-! ## All workers -/

/-- A pair of nodes is repeated among relationships. -/
def Repeats (relationships : List StoredRelationship) (source target : Nat) : Prop :=
  2 ≤ relationships.countP fun r => r.source == source && r.target == target

/-- A pair of which something holds, and no pair in front of it, by source and then by target. -/
def LeastPair (P : Nat → Nat → Prop) (source target : Nat) : Prop :=
  P source target ∧ ∀ source' target', P source' target' →
    source < source' ∨ source = source' ∧ target ≤ target'

/-- There is one such pair at most. -/
theorem LeastPair.unique {P : Nat → Nat → Prop} {a b c d : Nat} (h : LeastPair P a b)
    (h' : LeastPair P c d) : a = c ∧ b = d := by
  have hle := h.2 c d h'.1
  have hge := h'.2 a b h.1
  omega

/-- Where the pairs are bounded, it is found below the bound. -/
theorem leastPair_of_below {P : Nat → Nat → Prop} (bound : Nat) {a b : Nat}
    (hbelow : ∀ c d, P c d → c < bound ∧ d < bound) (hab : P a b)
    (hleast : ∀ c < bound, ∀ d < bound, P c d → a < c ∨ a = c ∧ b ≤ d) : LeastPair P a b :=
  ⟨hab, fun c d hcd => hleast c (hbelow c d hcd).1 d (hbelow c d hcd).2 hcd⟩

namespace Intake

variable {nodes : IdMap} {s : RelationshipSettings} {t : Intake} {l : Ledger}

/-- A worker comes back with the merged relationships of its nodes, or with the fault of the first that
cannot be merged. -/
theorem KeepsLedger.settle_packTask (h : KeepsLedger nodes s t l)
    (hdense : AllBelow nodes.nodeCount l.arrived) {worker : Nat} (hworker : worker < t.partitions.length) :
    (t.packTask worker).settle =
      (t.partitions[worker].nodes.mapM
        (mergeOwn nodes s.aggregation (l.arrived.mergeSort StoredRelationship.le))).map
          fun rows => rows.foldl PackedPartition.push .empty := by
  rw [← h.pack_eq hdense hworker]
  have hpartition : t.partitions.toArray.getD worker ⟨0, 0⟩ = t.partitions[worker] := by
    rw [Array.getD_eq_getD_getElem?, List.getElem?_toArray, List.getElem?_eq_getElem hworker,
      Option.getD_some]
  rw [packTask, hpartition, h.nodes_eq, h.settings_eq]
  cases PackedPartition.pack nodes s.aggregation t.partitions[worker]
    (t.buckets.getD worker #[]).toList <;> rfl

/-- The workers merge what has arrived for each node, partition by partition. -/
theorem KeepsLedger.run_packTask (h : KeepsLedger nodes s t l) (hdense : AllBelow nodes.nodeCount l.arrived) :
    Pool.run t.partitions.length t.packTask =
      t.partitions.mapM fun partition => (partition.nodes.mapM
        (mergeOwn nodes s.aggregation (l.arrived.mergeSort StoredRelationship.le))).map
          fun rows => rows.foldl PackedPartition.push .empty := by
  conv_rhs => rw [← map_range_getD t.partitions ⟨0, 0⟩, List.mapM_map]
  rw [Pool.run_eq]
  refine mapM_congr fun worker hmem => ?_
  have hworker := List.mem_range.mp hmem
  rw [h.settle_packTask hdense hworker, Function.comp_apply, List.getElem?_eq_getElem hworker,
    Option.getD_some]

/-- A build fails with the first node whose relationships cannot be merged. -/
theorem KeepsLedger.build_eq_error_iff (h : KeepsLedger nodes s t l)
    (hdense : AllBelow nodes.nodeCount l.arrived) (hconcurrency : 1 ≤ s.concurrency) (cause : Fault) :
    t.build = .error cause ↔
      ∃ node < nodes.nodeCount,
        mergeOwn nodes s.aggregation (l.arrived.mergeSort StoredRelationship.le) node = .error cause ∧
          ∀ other < node, ∃ row,
            mergeOwn nodes s.aggregation (l.arrived.mergeSort StoredRelationship.le) other = .ok row := by
  have hbuild : t.build = .error cause ↔ Pool.run t.partitions.length t.packTask = .error cause := by
    rw [build_eq (h.settings_eq ▸ hconcurrency)]
    cases Pool.run t.partitions.length t.packTask <;> simp [Except.map]
  rw [hbuild, h.run_packTask hdense, mapM_parts_eq_error_iff, h.partitions_eq, flatMap_nodes_rangePartition,
    mapM_eq_error_iff List.pairwise_lt_range]
  simp only [List.mem_range]
  constructor
  · rintro ⟨node, hnode, herror, hbefore⟩
    exact ⟨node, hnode, herror, fun other hlt => hbefore other (Nat.lt_trans hlt hnode) hlt⟩
  · rintro ⟨node, hnode, herror, hbefore⟩
    exact ⟨node, hnode, herror, fun other _ hlt => hbefore other hlt⟩

/-- Where parallel relationships are refused, either no pair is repeated and something is built, or the
build names the least pair that is repeated. -/
theorem KeepsLedger.build_reject_cases (h : KeepsLedger nodes s t l)
    (hdense : AllBelow nodes.nodeCount l.arrived) (hconcurrency : 1 ≤ s.concurrency)
    (hreject : s.aggregation = .reject) :
    (∃ r, t.build = .ok r) ∧ (∀ source target, ¬ Repeats l.arrived source target) ∨
      ∃ source target, LeastPair (Repeats l.arrived) source target ∧
        t.build = .error (.duplicateRelationship (nodes.toExternal source) (nodes.toExternal target)) := by
  have hfails := h.build_eq_error_iff hdense hconcurrency
  rw [hreject] at hfails
  by_cases hsome : ∃ source target, Repeats l.arrived source target
  · classical
    -- The first node with a repeated target is the first that cannot be merged.
    have hbefore : ∀ other < Nat.find hsome, ∀ target, ¬ Repeats l.arrived other target :=
      fun other hlt target hrepeat => Nat.find_min hsome hlt ⟨target, hrepeat⟩
    obtain ⟨repeated, hrepeated⟩ := Nat.find_spec hsome
    have hbelow : Nat.find hsome < nodes.nodeCount := by
      obtain ⟨r, hr, hpair⟩ := List.countP_pos_iff.mp (Nat.lt_of_lt_of_le Nat.zero_lt_two hrepeated)
      rw [Bool.and_eq_true, beq_iff_eq, beq_iff_eq] at hpair
      exact hpair.1 ▸ (hdense r hr).1
    generalize Nat.find hsome = source at hbefore hrepeated hbelow
    refine Or.inr ?_
    rcases mergeOwn_reject nodes l.arrived source with ⟨-, hnone⟩ | ⟨target, herror, htwice, hleast⟩
    · exact absurd hrepeated (by rw [Repeats, ← length_weightsBetween]; have := hnone repeated; omega)
    · refine ⟨source, target, ⟨?_, fun source' target' hrepeat => ?_⟩,
        (hfails _).mpr ⟨source, hbelow, herror, fun other hlt => ?_⟩⟩
      · rw [Repeats, ← length_weightsBetween]
        exact htwice
      · rcases Nat.lt_trichotomy source source' with hlt | rfl | hgt
        · exact Or.inl hlt
        · refine Or.inr ⟨rfl, Nat.le_of_not_lt fun hlt => ?_⟩
          rw [Repeats, ← length_weightsBetween] at hrepeat
          have := hleast target' hlt
          omega
        · exact absurd hrepeat (hbefore source' hgt target')
      · rcases mergeOwn_reject nodes l.arrived other with ⟨hrow, -⟩ | ⟨target', -, htwice', -⟩
        · exact hrow
        · rw [length_weightsBetween] at htwice'
          exact absurd htwice' (hbefore other hlt target')
  · push Not at hsome
    refine Or.inl ⟨?_, hsome⟩
    cases hbuild : t.build with
    | ok r => exact ⟨r, rfl⟩
    | error cause =>
      obtain ⟨node, -, herror, -⟩ := (hfails cause).mp hbuild
      rcases mergeOwn_reject nodes l.arrived node with ⟨⟨row, hrow⟩, -⟩ | ⟨target, -, htwice, -⟩
      · exact absurd (hrow.symm.trans herror) (by simp)
      · rw [length_weightsBetween] at htwice
        exact absurd htwice (hsome node target)

/-- What is built when the workers come back in a given order. -/
def buildInOrder (t : Intake) (order : List Nat) : Except Fault Relationships :=
  (Pool.runInOrder t.packTask order).map fun packed =>
    (packed.foldl PackedNodes.append .empty).relationships t.settings

/-- The order in which the workers come back makes no difference. -/
theorem buildInOrder_eq_build (hconcurrency : 1 ≤ t.settings.concurrency) {order : List Nat}
    (horder : order.Perm (List.range t.partitions.length)) : t.buildInOrder order = t.build := by
  rw [buildInOrder, Pool.runInOrder_eq_run horder, build_eq hconcurrency]

end Intake

/-- What is produced is between nodes. -/
theorem lt_of_produced {nodes : IdMap} (hnodes : nodes.Valid) {s : RelationshipSettings}
    {calls : List Call} {source target : Nat}
    (h : 0 < (offers nodes s calls).countP (s.produces source target)) :
    source < nodes.nodeCount ∧ target < nodes.nodeCount := by
  obtain ⟨offer, hoffer, hproduces⟩ := List.countP_pos_iff.mp h
  have hstored := countP_fanOut s source target offer
  rw [if_pos hproduces] at hstored
  obtain ⟨r, hr, hpair⟩ := List.countP_pos_iff.mp (hstored ▸ Nat.zero_lt_one)
  rw [Bool.and_eq_true, beq_iff_eq, beq_iff_eq] at hpair
  exact hpair.1 ▸ hpair.2 ▸ allBelow_offers hnodes.dense_lt s calls r (List.mem_flatMap.mpr ⟨offer, hoffer, hr⟩)

end PackedGraph
