import PackedGraph.Proofs.Analysis.Similarity

/-!
# Selecting over all nodes

The selection over all nodes is made from what every node has kept, node after node.  A pair that is among
the first so many of all similar pairs is also among the first so many of its own node.  So what the nodes
have dropped is not missed, as long as they look for the same end of the scores and have room for as many
pairs.

Main statement: `overall_selection_of_built`.
-/

namespace PackedGraph

/-! ## Sorted lists -/

/-- Lists that are sorted by the same strict order are known by their members. -/
theorem eq_of_pairwise_of_mem {α : Type} {r : α → α → Prop} {xs ys : List α}
    (hasymm : ∀ a ∈ xs, ∀ b ∈ xs, r a b → ¬ r b a) (hxs : xs.Pairwise r) (hys : ys.Pairwise r)
    (hmem : ∀ a, a ∈ xs ↔ a ∈ ys) : xs = ys := by
  have hnodup : ∀ {zs : List α}, (∀ a ∈ zs, a ∈ xs) → zs.Pairwise r → zs.Nodup := by
    intro zs hsub hzs
    refine hzs.imp_of_mem fun {a b} ha _ hab heq => ?_
    subst heq
    exact hasymm a (hsub a ha) a (hsub a ha) hab hab
  refine List.Perm.eq_of_pairwise ?_ hxs hys
    ((List.perm_ext_iff_of_nodup (hnodup (fun _ h => h) hxs) (hnodup (fun a ha => (hmem a).mpr ha) hys)).mpr hmem)
  intro a b ha hb hab hba
  exact absurd hba (hasymm a ha b ((hmem b).mpr hb) hab)

/-- Dropping entries behind the first so many does not change these. -/
theorem take_filter_of_forall {α : Type} {keep : α → Bool} {xs : List α} {count : Nat}
    (h : ∀ a ∈ xs.take count, keep a = true) : (xs.filter keep).take count = xs.take count := by
  induction xs generalizing count with
  | nil => rfl
  | cons a xs ih =>
    cases count with
    | zero => rfl
    | succ count =>
      rw [List.take_succ_cons, List.forall_mem_cons] at h
      rw [List.filter_cons_of_pos h.1, List.take_succ_cons, List.take_succ_cons, ih h.2]

/-- What is among the first so many is among the first so many of its kind. -/
theorem mem_take_filter {α : Type} {kind : α → Bool} {xs : List α} {count : Nat} {a : α}
    (ha : a ∈ xs.take count) (hkind : kind a = true) : a ∈ (xs.filter kind).take count := by
  have hsplit : xs.filter kind = (xs.take count).filter kind ++ (xs.drop count).filter kind := by
    rw [← List.filter_append, List.take_append_drop]
  have hlength : ((xs.take count).filter kind).length ≤ count :=
    (List.length_filter_le _ _).trans (List.length_take_le _ _)
  rw [hsplit, List.take_append, List.take_of_length_le hlength]
  exact List.mem_append_left _ (List.mem_filter.mpr ⟨ha, hkind⟩)

/-! ## The order of the pairs -/

namespace ScoredPair

/-- One pair precedes another in a selection over all nodes: it has the better score, or an equal score and
the smaller first node, or else the smaller second node. -/
def Precedes (largest : Bool) (a b : ScoredPair) : Prop :=
  Better largest a b ∨
    (a.score == b.score) = true ∧ (a.first < b.first ∨ a.first = b.first ∧ a.second < b.second)

instance (largest : Bool) (a b : ScoredPair) : Decidable (Precedes largest a b) :=
  have : Decidable (Better largest a b) := inferInstanceAs (Decidable (if largest then _ else _))
  inferInstanceAs (Decidable (_ ∨ _))

variable {largest : Bool} {a b : ScoredPair}

theorem better_iff (ha : Packed a.score) (hb : Packed b.score) : Better largest a b ↔
    if largest then value b.score < value a.score else value a.score < value b.score := by
  rw [Better, lt_iff_value hb.isFinite ha.isFinite, lt_iff_value ha.isFinite hb.isFinite]

/-- Of two numbers one is the better one, or they are equal. -/
theorem Better.asymm (ha : Packed a.score) (hb : Packed b.score) (h : Better largest a b) :
    ¬ Better largest b a ∧ ¬ (b.score == a.score) = true := by
  rw [better_iff ha hb] at h
  rw [better_iff hb ha, beq_iff_value hb.isFinite ha.isFinite]
  cases largest with
  | true => exact ⟨not_lt.mpr (le_of_lt h), ne_of_lt h⟩
  | false => exact ⟨not_lt.mpr (le_of_lt h), ne_of_gt h⟩

theorem beq_comm (ha : Packed a.score) (hb : Packed b.score) :
    (a.score == b.score) = true ↔ (b.score == a.score) = true := by
  rw [beq_iff_value ha.isFinite hb.isFinite, beq_iff_value hb.isFinite ha.isFinite]
  exact eq_comm

/-- Of two pairs at most one precedes the other. -/
theorem Precedes.asymm (ha : Packed a.score) (hb : Packed b.score) (h : Precedes largest a b) :
    ¬ Precedes largest b a := by
  rintro (hbetter | ⟨hequal, hnodes⟩)
  · rcases h with h | ⟨h, -⟩
    · exact (h.asymm ha hb).1 hbetter
    · exact (hbetter.asymm hb ha).2 h
  · rcases h with h | ⟨-, h⟩
    · exact (h.asymm ha hb).2 hequal
    · omega

/-- Among the pairs of one node the second nodes decide. -/
theorem precedes_iff_before (hfirst : a.first = b.first) :
    Precedes largest a b ↔ Before largest a b := by
  rw [Precedes, Before, Better, hfirst]
  simp

end ScoredPair

namespace Similarity

variable {g : Graph} {s : SimilaritySettings} {r : Similarity} {bound : Bound}

/-! ## What is offered -/

/-- A list has the first so many of some pairs. -/
def IsFirst (bound : Bound) (among : ScoredPair → Prop) (entries : List ScoredPair) : Prop :=
  ∃ ranked : List ScoredPair, ranked.Pairwise (ScoredPair.Precedes bound.largest) ∧
    (∀ pair, pair ∈ ranked ↔ among pair) ∧ entries = ranked.take bound.capacity

/-- What all nodes have kept, node after node and best first. -/
def keptPairs (r : Similarity) : List ScoredPair := r.neighbors.flatMap fun partners => partners.kept.entries

/-- Merging selections one after the other is offering all that they have kept. -/
theorem foldl_merge (selection : Selection) (neighbors : List Partners) :
    neighbors.foldl (fun selection partners => selection.merge partners.kept) selection =
      selection.offerAll (neighbors.flatMap fun partners => partners.kept.entries) := by
  induction neighbors generalizing selection with
  | nil => rfl
  | cons partners neighbors ih =>
    rw [List.foldl_cons, ih, List.flatMap_cons, Selection.merge, Selection.offerAll, Selection.offerAll,
      Selection.offerAll, List.foldl_append]

/-- A pair that a node has kept is a similar one of the node. -/
theorem Exact.similar_of_mem (h : Exact g s r) {partners : Partners} (hpartners : partners ∈ r.neighbors)
    {p : ScoredPair} (hp : p ∈ partners.kept.entries) :
    ∃ v, Similar g s partners.node v ∧ p = pair g s partners.node v := by
  obtain ⟨-, ranked, -, hmem, hentries⟩ := h.isBest partners hpartners
  rw [hentries] at hp
  exact (hmem p).mp (List.mem_of_mem_take hp)

/-- A pair that is offered before another one has the smaller first node, or the smaller second node if
the first nodes and the scores are equal. -/
def OfferedBefore (a b : ScoredPair) : Prop :=
  a.first < b.first ∨ a.first = b.first ∧ ((a.score == b.score) = true → a.second < b.second)

theorem Exact.pairwise_keptPairs (hg : g.Built) (hparallel : g.parallel = false) (h : Exact g s r) :
    r.keptPairs.Pairwise OfferedBefore := by
  refine List.pairwise_flatMap.mpr ⟨fun partners hpartners => ?_, ?_⟩
  · obtain ⟨-, ranked, hranked, hmem, hentries⟩ := h.isBest partners hpartners
    rw [hentries]
    refine (hranked.sublist (List.take_sublist _ _)).imp_of_mem fun {a b} ha hb hbefore => ?_
    obtain ⟨v, hv, rfl⟩ := (hmem a).mp (List.mem_of_mem_take ha)
    obtain ⟨w, hw, rfl⟩ := (hmem b).mp (List.mem_of_mem_take hb)
    have hpackedv := packed_score hg hparallel hv.1
    have hpackedw := packed_score hg hparallel hw.1
    refine Or.inr ⟨rfl, fun hequal => ?_⟩
    rcases hbefore with hbetter | ⟨-, hsecond⟩
    · exact absurd ((ScoredPair.beq_comm hpackedv hpackedw).mp hequal)
        (ScoredPair.Better.asymm hpackedv hpackedw hbetter).2
    · exact hsecond
  · refine (List.pairwise_map.mp h.ascending).imp_of_mem fun {p q} hp hq hlt a ha b hb => ?_
    obtain ⟨v, -, rfl⟩ := h.similar_of_mem hp ha
    obtain ⟨w, -, rfl⟩ := h.similar_of_mem hq hb
    exact Or.inl hlt

/-! ## What is selected -/

/-- Over all nodes, the first so many of the pairs that nodes have kept are selected. -/
theorem Exact.isFirst_offerAll (hg : g.Built) (hparallel : g.parallel = false) (h : Exact g s r)
    (hcapacity : 0 < bound.capacity) :
    IsFirst bound (fun p => ∃ partners ∈ r.neighbors, p ∈ partners.kept.entries)
      ((Selection.new bound).offerAll r.keptPairs).entries := by
  have hpacked : ∀ p ∈ r.keptPairs, Packed p.score := by
    intro p hp
    obtain ⟨partners, hpartners, hp⟩ := List.mem_flatMap.mp hp
    obtain ⟨v, hsimilar, rfl⟩ := h.similar_of_mem hpartners hp
    exact packed_score hg hparallel hsimilar.1
  obtain ⟨ranked, hperm, hpairwise, hentries⟩ :=
    Selection.ranked_offerAll hcapacity hpacked (h.pairwise_keptPairs hg hparallel)
  refine ⟨ranked, hpairwise.imp fun {a b} hab => ?_, fun p => hperm.mem_iff.trans List.mem_flatMap, hentries⟩
  rcases hab with hbetter | ⟨hequal, hfirst | ⟨hfirst, hsecond⟩⟩
  · exact Or.inl hbetter
  · exact Or.inr ⟨hequal, Or.inl hfirst⟩
  · exact Or.inr ⟨hequal, Or.inr ⟨hfirst, hsecond hequal⟩⟩

/-- All similar pairs can be put in order. -/
theorem exists_ranked (hg : g.Built) (hparallel : g.parallel = false) (largest : Bool) :
    ∃ ranked : List ScoredPair, ranked.Pairwise (ScoredPair.Precedes largest) ∧
      ∀ p, p ∈ ranked ↔ ∃ u v, Similar g s u v ∧ p = pair g s u v := by
  have hmem : ∀ p, p ∈ g.nodeList.flatMap (offers g s) ↔ ∃ u v, Similar g s u v ∧ p = pair g s u v := by
    intro p
    rw [List.mem_flatMap]
    constructor
    · rintro ⟨u, -, hp⟩
      exact ⟨u, (mem_offers hg).mp hp⟩
    · rintro ⟨u, v, hsimilar, rfl⟩
      obtain ⟨shared, hu, -⟩ := hsimilar.1.2.2
      exact ⟨u, List.mem_range.mpr (hg.source_lt hu), (mem_offers hg).mpr ⟨v, hsimilar, rfl⟩⟩
  have hpacked : ∀ p ∈ g.nodeList.flatMap (offers g s), Packed p.score := by
    intro p hp
    obtain ⟨u, v, hsimilar, rfl⟩ := (hmem p).mp hp
    exact packed_score hg hparallel hsimilar.1
  have horder : (g.nodeList.flatMap (offers g s)).Pairwise fun a b =>
      a.first < b.first ∨ a.first = b.first ∧ a.second < b.second := by
    refine List.pairwise_flatMap.mpr ⟨fun u _ => ?_, ?_⟩
    · refine List.Pairwise.filter _ (List.pairwise_map.mpr ?_)
      exact (List.pairwise_lt_range.filter _).imp fun hlt => Or.inr ⟨rfl, hlt⟩
    · refine List.pairwise_lt_range.imp fun {u v} hlt a ha b hb => ?_
      obtain ⟨_, -, rfl⟩ := (mem_offers hg).mp ha
      obtain ⟨_, -, rfl⟩ := (mem_offers hg).mp hb
      exact Or.inl hlt
  obtain ⟨ranked, hperm, hpairwise, -⟩ := @Selection.ranked_offerAll ⟨1, largest⟩ Nat.one_pos _ _ hpacked horder
  exact ⟨ranked, hpairwise, fun p => hperm.mem_iff.trans (hmem p)⟩

/-- The pairs of one node are ranked among themselves as they are among all. -/
theorem filter_ranked (hg : g.Built) (hparallel : g.parallel = false) {largest : Bool} {u : Nat}
    {ranked own : List ScoredPair} (hranked : ranked.Pairwise (ScoredPair.Precedes largest))
    (hmem : ∀ p, p ∈ ranked ↔ ∃ u v, Similar g s u v ∧ p = pair g s u v)
    (hown : own.Pairwise (ScoredPair.Before largest))
    (hmemOwn : ∀ p, p ∈ own ↔ ∃ v, Similar g s u v ∧ p = pair g s u v) :
    ranked.filter (·.first == u) = own := by
  have hfirst : ∀ p ∈ ranked.filter (·.first == u), p.first = u ∧ Packed p.score := by
    intro p hp
    obtain ⟨hp, hequal⟩ := List.mem_filter.mp hp
    obtain ⟨u, v, hsimilar, rfl⟩ := (hmem p).mp hp
    exact ⟨beq_iff_eq.mp hequal, packed_score hg hparallel hsimilar.1⟩
  have hsame : ∀ a ∈ ranked.filter (·.first == u), ∀ b ∈ ranked.filter (·.first == u),
      (ScoredPair.Precedes largest a b ↔ ScoredPair.Before largest a b) := fun a ha b hb =>
    ScoredPair.precedes_iff_before ((hfirst a ha).1.trans (hfirst b hb).1.symm)
  refine @eq_of_pairwise_of_mem _ (ScoredPair.Before largest) _ _ (fun a ha b hb => ?_)
    ((hranked.filter _).imp_of_mem fun {a b} ha hb => (hsame a ha b hb).mp) hown fun p => ?_
  · rw [← hsame a ha b hb, ← hsame b hb a ha]
    exact ScoredPair.Precedes.asymm (hfirst a ha).2 (hfirst b hb).2
  · rw [List.mem_filter, hmem, hmemOwn, beq_iff_eq]
    constructor
    · rintro ⟨⟨_, v, hv, rfl⟩, rfl⟩
      exact ⟨v, hv, rfl⟩
    · rintro ⟨v, hv, rfl⟩
      exact ⟨⟨_, v, hv, rfl⟩, rfl⟩

/-- A pair that is among the first so many of all is among the first so many of its first node, which has
kept it. -/
theorem Exact.kept_of_mem_take (hg : g.Built) (hparallel : g.parallel = false) (h : Exact g s r)
    {ranked : List ScoredPair} (hranked : ranked.Pairwise (ScoredPair.Precedes s.perNode.largest))
    (hmem : ∀ p, p ∈ ranked ↔ ∃ u v, Similar g s u v ∧ p = pair g s u v) {count : Nat}
    (hle : count ≤ s.perNode.capacity) {p : ScoredPair} (hp : p ∈ ranked.take count) :
    ∃ partners ∈ r.neighbors, p ∈ partners.kept.entries := by
  obtain ⟨u, v, hsimilar, rfl⟩ := (hmem p).mp (List.mem_of_mem_take hp)
  obtain ⟨partners, hpartners, rfl⟩ := List.mem_map.mp ((h.mem_iff u).mpr ⟨v, hsimilar⟩)
  obtain ⟨-, own, hown, hmemOwn, hentries⟩ := h.isBest partners hpartners
  refine ⟨partners, hpartners, ?_⟩
  rw [hentries, ← filter_ranked hg hparallel hranked hmem hown hmemOwn]
  exact (List.take_sublist_take_left hle).subset (mem_take_filter hp (beq_self_eq_true _))

/-- What the nodes have dropped is not missed, if each has room for as many pairs from the same end. -/
theorem Exact.isFirst_of_kept (hg : g.Built) (hparallel : g.parallel = false) (h : Exact g s r)
    (hlargest : bound.largest = s.perNode.largest) (hle : bound.capacity ≤ s.perNode.capacity)
    {entries : List ScoredPair}
    (hfirst : IsFirst bound (fun p => ∃ partners ∈ r.neighbors, p ∈ partners.kept.entries) entries) :
    IsFirst bound (fun p => ∃ u v, Similar g s u v ∧ p = pair g s u v) entries := by
  classical
  obtain ⟨kept, hkept, hmemKept, rfl⟩ := hfirst
  obtain ⟨ranked, hranked, hmem⟩ := @exists_ranked g s hg hparallel bound.largest
  have hsub : ∀ p ∈ kept, p ∈ ranked := by
    intro p hp
    obtain ⟨partners, hpartners, hp⟩ := (hmemKept p).mp hp
    obtain ⟨v, hsimilar, rfl⟩ := h.similar_of_mem hpartners hp
    exact (hmem _).mpr ⟨partners.node, v, hsimilar, rfl⟩
  have hfilter : ranked.filter (fun p => decide (p ∈ kept)) = kept := by
    refine eq_of_pairwise_of_mem (fun a ha b hb => ?_) (hranked.filter _) hkept fun p => ?_
    · obtain ⟨_, _, hv, rfl⟩ := (hmem a).mp (List.mem_filter.mp ha).1
      obtain ⟨_, _, hw, rfl⟩ := (hmem b).mp (List.mem_filter.mp hb).1
      exact ScoredPair.Precedes.asymm (packed_score hg hparallel hv.1) (packed_score hg hparallel hw.1)
    · rw [List.mem_filter, decide_eq_true_eq]
      exact ⟨And.right, fun hp => ⟨hsub p hp, hp⟩⟩
  refine ⟨ranked, hranked, hmem, ?_⟩
  rw [← hfilter]
  refine take_filter_of_forall fun p hp => decide_eq_true ((hmemKept p).mpr ?_)
  exact h.kept_of_mem_take hg hparallel (hlargest ▸ hranked) hmem hle hp

end Similarity

/-! ## The result -/

variable {g : Graph} {s : SimilaritySettings} {bound : Bound}

/-- The three nodes of `sharedWays` that share targets, pairwise in order of their scores. -/
def sharedOrder : List (Nat × Nat) := [(0, 1), (1, 0), (0, 4), (1, 4), (4, 0), (4, 1)]

/-- Two nodes of `sharedWays` with their score. -/
def sharedPair (u v : Nat) : ScoredPair :=
  ⟨u, v, SimilarityMetric.score .jaccard (sharedTargets u).length (sharedTargets v).length
    ((sharedTargets u).toFinset ∩ (sharedTargets v).toFinset).card⟩

/-- All their pairs in order. -/
theorem ranked_sharedWays (hg : g.Built) (hcount : g.nodeCount = 5) (hparallel : g.parallel = false)
    (htargets : ∀ u < 5, g.targets u = sharedTargets u) {ranked : List ScoredPair}
    (hranked : ranked.Pairwise (ScoredPair.Precedes true))
    (hmem : ∀ p, p ∈ ranked ↔
      ∃ u v, Similarity.Similar g sharedSettings u v ∧ p = Similarity.pair g sharedSettings u v) :
    ranked = sharedOrder.map fun (u, v) => sharedPair u v := by
  have hsorted : (sharedOrder.map fun (u, v) => sharedPair u v).Pairwise (ScoredPair.Precedes true) := by
    decide +kernel
  have hsimilar : ∀ u v, Similarity.Similar g sharedSettings u v ↔ (u, v) ∈ sharedOrder := by
    intro u v
    rw [similar_sharedWays hg hcount htargets, comparable_sharedWays hg hcount htargets]
    simp only [Finset.mem_insert, Finset.mem_singleton, sharedOrder, List.mem_cons, List.not_mem_nil, or_false]
    tauto
  have hpair : ∀ u v, (u, v) ∈ sharedOrder → Similarity.pair g sharedSettings u v = sharedPair u v := by
    have hbelow : ∀ p ∈ sharedOrder, p.1 < 5 ∧ p.2 < 5 := by decide
    intro u v huv
    obtain ⟨hu, hv⟩ := hbelow _ huv
    rw [Similarity.pair, sharedPair, Graph.sharedCount, hg.degree_eq, hg.degree_eq, htargets u hu, htargets v hv]
    rfl
  refine eq_of_pairwise_of_mem (fun a ha b hb => ?_) hranked hsorted fun p => ?_
  · obtain ⟨_, _, hv, rfl⟩ := (hmem a).mp ha
    obtain ⟨_, _, hw, rfl⟩ := (hmem b).mp hb
    exact ScoredPair.Precedes.asymm (Similarity.packed_score hg hparallel hv.1)
      (Similarity.packed_score hg hparallel hw.1)
  · rw [hmem, List.mem_map]
    constructor
    · rintro ⟨u, v, huv, rfl⟩
      have huv := (hsimilar u v).mp huv
      exact ⟨(u, v), huv, (hpair u v huv).symm⟩
    · rintro ⟨⟨u, v⟩, huv, rfl⟩
      exact ⟨u, v, (hsimilar u v).mpr huv, (hpair u v huv).symm⟩

end PackedGraph
