import PackedGraph.Proofs.Analysis.Grouping
import PackedGraph.Proofs.Graph.Parallel

/-!
# Members with the most relationships inside a set

Only the relationships that leave a member are looked at, and each of them counts for both of its ends.  So the
table of degrees holds for every member how often it is the first and how often it is the second of the pairs
that have been found; and one pair of members is found as often as there are relationships from one to the other.
Sorting the table orders the members strictly, which leaves no room for the order in which they are given or the
table is listed.

Main statements: `Graph.count_inside`, `Graph.perm_insideDegrees`, `Graph.sum_degreeInside` and
`central_nodes_ranked_by_degree`.
-/

namespace PackedGraph

/-! ## Counting by parts -/

/-- A sum over distinct entries has one term that is not zero, if it only depends on being a certain one. -/
theorem sum_map_ite_of_nodup {α : Type} [DecidableEq α] {members : List α} (h : members.Nodup) {a : α}
    (hmem : a ∈ members) (n : Nat) : (members.map fun other => if other = a then n else 0).sum = n := by
  induction members with
  | nil => exact absurd hmem List.not_mem_nil
  | cons first members ih =>
    obtain ⟨hfirst, hrest⟩ := List.nodup_cons.mp h
    rw [List.map_cons, List.sum_cons]
    rcases List.mem_cons.mp hmem with rfl | hmem
    · have hzero : (members.map fun other => if other = a then n else 0) = members.map fun _ => 0 :=
        List.map_congr_left fun other hother => if_neg (ne_of_mem_of_not_mem hother hfirst)
      rw [if_pos rfl, hzero]
      simp
    · rw [if_neg (ne_of_mem_of_not_mem hmem hfirst).symm, ih hrest hmem, Nat.zero_add]

/-- Things that belong to distinct members are as many as those of all members together. -/
theorem length_eq_sum_countP {α β : Type} [DecidableEq α] {members : List α} (h : members.Nodup)
    (owner : β → α) {xs : List β} (howner : ∀ x ∈ xs, owner x ∈ members) :
    xs.length = (members.map fun m => xs.countP fun x => decide (owner x = m)).sum := by
  induction xs with
  | nil => simp
  | cons x xs ih =>
    obtain ⟨hx, hxs⟩ := List.forall_mem_cons.mp howner
    have hone := sum_map_ite_of_nodup h hx 1
    simp only [List.countP_cons, List.sum_map_add, List.length_cons, ih hxs, decide_eq_true_eq,
      eq_comm (a := owner x), hone]

namespace Graph

variable {g : Graph} {members : List Nat}

/-! ## Pairs that are found -/

/-- How many relationships lead from one node to another: every type counts, and every parallel one; those from a
node to itself do not. -/
def links (g : Graph) (source target : Nat) : Nat :=
  if target = source then 0
  else (g.types.flatMap fun type => type.relationships.targets source).count target

/-- How many relationships lead from a node to members and from members to the node. -/
def degreeInside (g : Graph) (members : List Nat) (node : Nat) : Nat :=
  (members.map fun other => g.links node other + g.links other node).sum

/-- A pair of members is found once for every relationship from one to the other. -/
theorem count_inside (hg : g.Built) (h : members.Nodup) {source target : Nat} (hsource : source ∈ members)
    (htarget : target ∈ members) : (g.inside members).count (source, target) = g.links source target := by
  have hown : ∀ node, (((g.targets node).filter fun other =>
      other != node && (Std.HashSet.ofList members).contains other).map (node, ·)).count (source, target) =
        if node = source then g.links source target else 0 := by
    intro node
    by_cases hnode : node = source
    · subst hnode
      rw [if_pos rfl, links, List.count_map_of_injective _ _ (Prod.mk_right_injective node)]
      by_cases hloop : target = node
      · rw [if_pos hloop, List.count_eq_zero]
        simp [hloop]
      · rw [if_neg hloop, List.count_filter (by simp [hloop, htarget]), hg.count_targets]
    · rw [if_neg hnode, List.count_eq_zero]
      simp [hnode]
  rw [inside, List.count_flatMap, ← sum_map_ite_of_nodup h hsource (g.links source target)]
  exact congrArg List.sum (List.map_congr_left fun node _ => hown node)

/-- A member is the first of as many pairs as there are relationships from it to members. -/
theorem count_first_inside (hg : g.Built) (h : members.Nodup) {node : Nat} (hnode : node ∈ members) :
    ((g.inside members).map Prod.fst).count node = (members.map fun other => g.links node other).sum := by
  have hsplit := @length_eq_sum_countP _ _ _ _ h Prod.snd
    ((g.inside members).filter fun pair => decide (pair.1 = node)) fun pair hpair =>
      (mem_inside.mp (List.mem_filter.mp hpair).1).2.2.2
  rw [List.count, List.countP_map, List.countP_eq_length_filter]
  refine Eq.trans (by rfl) (hsplit.trans (congrArg List.sum (List.map_congr_left fun other hother => ?_)))
  rw [← count_inside hg h hnode hother, List.countP_filter]
  exact List.countP_congr fun pair _ => by simp [Prod.ext_iff, and_comm]

/-- A member is the second of as many pairs as there are relationships from members to it. -/
theorem count_second_inside (hg : g.Built) (h : members.Nodup) {node : Nat} (hnode : node ∈ members) :
    ((g.inside members).map Prod.snd).count node = (members.map fun other => g.links other node).sum := by
  have hsplit := @length_eq_sum_countP _ _ _ _ h Prod.fst
    ((g.inside members).filter fun pair => decide (pair.2 = node)) fun pair hpair =>
      (mem_inside.mp (List.mem_filter.mp hpair).1).1
  rw [List.count, List.countP_map, List.countP_eq_length_filter]
  refine Eq.trans (by rfl) (hsplit.trans (congrArg List.sum (List.map_congr_left fun other hother => ?_)))
  rw [← count_inside hg h hother hnode, List.countP_filter]
  exact List.countP_congr fun pair _ => by simp [Prod.ext_iff]

/-! ## The table of degrees -/

/-- A table holds these degrees for the members, and nothing else. -/
def HoldsDegrees (members : List Nat) (degrees : Std.HashMap Nat Nat) (degree : Nat → Nat) : Prop :=
  ∀ node, degrees[node]? = if node ∈ members then some (degree node) else none

variable {degrees : Std.HashMap Nat Nat} {degree : Nat → Nat}

theorem holdsDegrees_zero (members : List Nat) :
    HoldsDegrees members (members.foldl (fun degrees node => degrees.insert node 0) ∅) fun _ => 0 := by
  suffices h : ∀ (rest seen : List Nat) (degrees : Std.HashMap Nat Nat), HoldsDegrees seen degrees (fun _ => 0) →
      HoldsDegrees (seen ++ rest) (rest.foldl (fun degrees node => degrees.insert node 0) degrees) fun _ => 0 from
    h members [] ∅ (by simp [HoldsDegrees])
  intro rest
  induction rest with
  | nil => exact fun seen degrees h => (List.append_nil seen).symm ▸ h
  | cons first rest ih =>
    intro seen degrees h
    rw [List.foldl_cons, List.append_cons]
    refine ih _ _ fun node => ?_
    rw [Std.HashMap.getElem?_insert, h node]
    by_cases heq : first = node
    · simp [heq]
    · simp [heq, Ne.symm heq]

/-- One more relationship of a member. -/
theorem HoldsDegrees.countEnd (h : HoldsDegrees members degrees degree) {last : Nat} (hlast : last ∈ members) :
    HoldsDegrees members (countEnd degrees last) fun node => degree node + if last = node then 1 else 0 := by
  intro node
  rw [Graph.countEnd, Std.HashMap.getElem?_alter]
  by_cases heq : last = node
  · subst heq
    simp [h last, hlast]
  · simp [heq, h node]

/-- Pairs of members count for both of their ends. -/
theorem HoldsDegrees.countPairs (pairs : List (Nat × Nat)) :
    ∀ {degrees : Std.HashMap Nat Nat} {degree : Nat → Nat}, HoldsDegrees members degrees degree →
      (∀ pair ∈ pairs, pair.1 ∈ members ∧ pair.2 ∈ members) →
      HoldsDegrees members
        (pairs.foldl (fun degrees (source, target) => Graph.countEnd (Graph.countEnd degrees target) source) degrees)
        fun node => degree node + ((pairs.map Prod.fst).count node + (pairs.map Prod.snd).count node) := by
  induction pairs with
  | nil => exact fun h _ => h
  | cons pair pairs ih =>
    intro degrees degree h hpairs
    obtain ⟨⟨hfirst, hsecond⟩, hrest⟩ := List.forall_mem_cons.mp hpairs
    have hstep := ih ((h.countEnd hsecond).countEnd hfirst) hrest
    intro node
    refine (hstep node).trans ?_
    simp only [List.map_cons, List.count_cons, beq_iff_eq]
    congr 2
    omega

/-- The table of degrees lists every member once, with its degree. -/
theorem perm_insideDegrees (hg : g.Built) (h : members.Nodup) :
    (g.insideDegrees members).toList.Perm (members.map fun node => (node, g.degreeInside members node)) := by
  have hholds : HoldsDegrees members (g.insideDegrees members) fun node =>
      0 + (((g.inside members).map Prod.fst).count node + ((g.inside members).map Prod.snd).count node) :=
    (holdsDegrees_zero members).countPairs _ fun pair hpair =>
      ⟨(mem_inside.mp hpair).1, (mem_inside.mp hpair).2.2.2⟩
  have hlisted : (g.insideDegrees members).toList.Nodup :=
    (distinct_of_perm_toList (.refl (g.insideDegrees members).toList)).imp fun hne heq => hne (congrArg Prod.fst heq)
  have hnodup : (members.map fun node => (node, g.degreeInside members node)).Nodup :=
    h.map fun a b hab => congrArg Prod.fst hab
  refine (List.perm_ext_iff_of_nodup hlisted hnodup).mpr fun ⟨node, degree⟩ => ?_
  rw [Std.HashMap.mem_toList_iff_getElem?_eq_some, hholds node, List.mem_map]
  by_cases hnode : node ∈ members
  · have hdegree : 0 + (((g.inside members).map Prod.fst).count node +
        ((g.inside members).map Prod.snd).count node) = g.degreeInside members node := by
      rw [count_first_inside hg h hnode, count_second_inside hg h hnode, Nat.zero_add, degreeInside,
        List.sum_map_add]
    simp only [if_pos hnode, hdegree]
    simp [hnode]
  · simp [hnode]

/-! ## Ranking -/

/-- All members, the ones with the most relationships inside the set first. -/
def rankedByDegree (g : Graph) (members : List Nat) : List Nat :=
  ((members.map fun node => (node, g.degreeInside members node)).mergeSort
    (largerFirst Prod.snd Prod.fst)).map Prod.fst

theorem distinct_degrees (g : Graph) (h : members.Nodup) :
    (members.map fun node => (node, g.degreeInside members node)).Pairwise fun a b => a.1 ≠ b.1 :=
  List.pairwise_map.mpr h

theorem centralByDegree_eq_take (hg : g.Built) (h : members.Nodup) (top : Nat) :
    g.centralByDegree members top = (g.rankedByDegree members).take top := by
  rw [centralByDegree_eq g members top (perm_insideDegrees hg h).symm, rankedByDegree, List.map_take]

theorem rankedByDegree_perm (g : Graph) (members : List Nat) : (g.rankedByDegree members).Perm members := by
  have hperm := (List.mergeSort_perm (members.map fun node => (node, g.degreeInside members node))
    (largerFirst Prod.snd Prod.fst)).map Prod.fst
  rwa [List.map_map, Function.comp_def, List.map_id'] at hperm

/-- Members are ranked by descending degrees, and those of one degree by ascending ids. -/
theorem pairwise_rankedByDegree (g : Graph) (h : members.Nodup) :
    (g.rankedByDegree members).Pairwise fun a b =>
      g.degreeInside members b < g.degreeInside members a ∨
        (g.degreeInside members a = g.degreeInside members b ∧ a < b) := by
  rw [rankedByDegree, List.pairwise_map]
  refine (pairwise_mergeSort_largerFirst (distinct_degrees g h)).imp_of_mem fun {a b} ha hb hab => ?_
  obtain ⟨u, -, rfl⟩ := List.mem_map.mp ((List.mergeSort_perm _ _).mem_iff.mp ha)
  obtain ⟨v, -, rfl⟩ := List.mem_map.mp ((List.mergeSort_perm _ _).mem_iff.mp hb)
  exact hab

/-- In which order members are given makes no difference. -/
theorem rankedByDegree_congr (g : Graph) {others : List Nat} (hperm : others.Perm members) (h : members.Nodup) :
    g.rankedByDegree others = g.rankedByDegree members := by
  have hdegree : g.degreeInside others = g.degreeInside members := funext fun node => (hperm.map _).sum_eq
  rw [rankedByDegree, rankedByDegree, hdegree, mergeSort_largerFirst (hperm.map _)]
  rw [← hdegree]
  exact distinct_degrees g (hperm.nodup_iff.mpr h)

/-- Every relationship between members counts for two of them. -/
theorem sum_degreeInside (g : Graph) (members : List Nat) :
    (members.map (g.degreeInside members)).sum =
      2 * (members.map fun source => (members.map fun target => g.links source target).sum).sum := by
  have hsplit : members.map (g.degreeInside members) = members.map fun node =>
      (members.map fun other => g.links node other).sum + (members.map fun other => g.links other node).sum :=
    List.map_congr_left fun node _ => List.sum_map_add
  rw [hsplit, List.sum_map_add, sum_map_sum_comm members members fun node other => g.links other node]
  exact (Nat.two_mul _).symm

end Graph

/-- **Central nodes are ranked by degree.**  For every graph that can be built and every list of distinct
members, in any order: put all members in the order of descending degrees inside the set, and those of one degree
in ascending order; the central nodes are the first ones, as many as are asked for or all.  In whatever order
the members are given and the table of degrees is listed, the same nodes are found.  The degrees of all members
together are twice the number of relationships between different members. -/
theorem central_nodes_ranked_by_degree {g : Graph} (hg : g.Built) {members : List Nat} (h : members.Nodup)
    (top : Nat) :
    (∃ ranked : List Nat, ranked.Perm members ∧
      (ranked.Pairwise fun a b => g.degreeInside members b < g.degreeInside members a ∨
        (g.degreeInside members a = g.degreeInside members b ∧ a < b)) ∧
      g.centralByDegree members top = ranked.take top) ∧
    (g.centralByDegree members top).length = min top members.length ∧
    (g.centralByDegree members top).Nodup ∧ (∀ node ∈ g.centralByDegree members top, node ∈ members) ∧
    (∀ others : List Nat, others.Perm members → g.centralByDegree others top = g.centralByDegree members top) ∧
    (∀ degrees : List (Nat × Nat), degrees.Perm (g.insideDegrees members).toList →
      g.centralByDegree members top = ((degrees.mergeSort (largerFirst Prod.snd Prod.fst)).take top).map Prod.fst) ∧
    (members.map (g.degreeInside members)).sum =
      2 * (members.map fun source => (members.map fun target => g.links source target).sum).sum := by
  have hcentral := Graph.centralByDegree_eq_take hg h top
  have hperm := g.rankedByDegree_perm members
  refine ⟨⟨_, hperm, g.pairwise_rankedByDegree h, hcentral⟩, ?_, ?_, ?_, fun others hothers => ?_,
    fun degrees hdegrees => g.centralByDegree_eq members top hdegrees, g.sum_degreeInside members⟩
  · rw [hcentral, List.length_take, hperm.length_eq]
  · rw [hcentral]
    exact (hperm.nodup_iff.mpr h).sublist (List.take_sublist _ _)
  · rw [hcentral]
    exact fun node hnode => hperm.mem_iff.mp (List.mem_of_mem_take hnode)
  · rw [hcentral, Graph.centralByDegree_eq_take hg (hothers.nodup_iff.mpr h),
      g.rankedByDegree_congr hothers h]

/-- Three of five nodes, with a relationship in each direction between 0 and 1, two parallel ones from 1 to 2, one
from 2 to itself and others that lead out of the set or into it: node 1 has the degree 4, and both others have 2. -/
theorem central_nodes_of_three : ∃ g : Graph, g.Built ∧ [2, 1, 0].Nodup ∧
    ([0, 1, 2].map (g.degreeInside [2, 1, 0])) = [2, 4, 2] ∧ g.centralByDegree [2, 1, 0] 2 = [1, 0] := by
  obtain ⟨g, hg, -, -, -, hcount⟩ := @Graph.exists_built (.identity 5) { concurrency := 2 } 0
    [.add 1 2 none, .add 0 1 none, .add 2 2 none, .add 1 0 none, .add 0 4 none, .add 1 2 none, .add 3 2 none]
    (IdMap.valid_identity (by decide)) (by decide) (by decide) (by decide)
  have hlinks : ∀ u < 3, ∀ v < 3, g.links u v = ([[0, 1, 0], [1, 0, 2], [0, 0, 0]].getD u []).getD v 0 := by
    intro u hu v hv
    rw [Graph.links, ← hg.count_targets, hcount u (Nat.lt_trans hu (by decide))]
    revert u v
    decide
  have hdegrees : [0, 1, 2].map (g.degreeInside [2, 1, 0]) = [2, 4, 2] := by
    simp [Graph.degreeInside, hlinks]
  simp only [List.map_cons, List.map_nil, List.cons.injEq, and_true] at hdegrees
  obtain ⟨hzero, hone, htwo⟩ := hdegrees
  have hnodup : [2, 1, 0].Nodup := by decide
  obtain ⟨⟨ranked, hperm, hranked, hcentral⟩, -⟩ := central_nodes_ranked_by_degree hg hnodup 2
  -- an order in which no two members are equal puts them in one way only
  have hsorted : [1, 0, 2].Pairwise fun a b => g.degreeInside [2, 1, 0] b < g.degreeInside [2, 1, 0] a ∨
      (g.degreeInside [2, 1, 0] a = g.degreeInside [2, 1, 0] b ∧ a < b) := by
    simp [hzero, hone, htwo]
  have heq : ranked = [1, 0, 2] :=
    List.Perm.eq_of_pairwise (fun a b _ _ hab hba => by omega) hranked hsorted (hperm.trans (by decide))
  exact ⟨g, hg, hnodup, by simp [hzero, hone, htwo], by rw [hcentral, heq]; rfl⟩

end PackedGraph
