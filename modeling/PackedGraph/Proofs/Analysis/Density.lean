import Mathlib.Combinatorics.SimpleGraph.Acyclic
import Mathlib.Combinatorics.SimpleGraph.DegreeSum
import Mathlib.Data.Finset.Prod
import PackedGraph.Proofs.Analysis.Clusters
import PackedGraph.Proofs.Analysis.Components
import PackedGraph.Proofs.Numeric.Quotients

/-!
# The density of clusters

The members of a cluster are a component, so no relationship leads out of it, and the relationships between
different members connect it.  Connecting `n` nodes takes `n - 1` of them, each of which is stored at least
once, and twice where both directions are stored; without parallel relationships there are no more than pairs.
The numbers of relationships and of pairs are words, and the number of pairs of more than `2 ^ 32` members
wraps round.

Main statement: `density_bounded_by_connectivity`.
-/

namespace PackedGraph

variable {g : Graph} {members : List Nat}

namespace Graph

/-! ## Components as lists -/

/-- An ascending list of the nodes of one component. -/
structure ListsComponent (g : Graph) (members : List Nat) : Prop where
  /-- Every node is listed once. -/
  ascending : members.Pairwise (· < ·)
  /-- There is one. -/
  nonempty : members ≠ []
  /-- With a node its whole component is listed, and nothing else. -/
  mem_iff : ∀ node ∈ members, ∀ other, other ∈ members ↔ g.Joined node other

/-- What is joined to a node is a node. -/
theorem Built.lt_of_joined (hg : g.Built) {a b : Nat} (h : g.Joined a b) (ha : a < g.nodeCount) :
    b < g.nodeCount := by
  induction h with
  | refl => exact ha
  | tail _ hlast _ =>
    rcases hlast with hlast | hlast
    · exact hg.target_lt hlast
    · exact hg.source_lt hlast

/-- Nodes with one least node in their components are joined. -/
theorem joined_of_isLeast {a b least : Nat} (ha : IsLeast (g.component a) least)
    (hb : IsLeast (g.component b) least) : g.Joined a b :=
  g.equivalence_joined.trans ha.1 (g.equivalence_joined.symm hb.1)

/-- The nodes with one representative are a component. -/
theorem listsComponent_of_exact (hg : g.Built) {c : Components} (hc : c.Exact g) {representative : Nat}
    (hsome : c.membersOf representative ≠ []) : g.ListsComponent (c.membersOf representative) := by
  refine ⟨c.pairwise_membersOf representative, hsome, fun node hnode other => ?_⟩
  obtain ⟨hlt, hrepresentative⟩ := Components.mem_membersOf.mp hnode
  have hleast := hc.least node hlt
  rw [Array.getD_eq_getD_getElem?, Array.getElem?_eq_getElem hlt, Option.getD_some] at hrepresentative
  rw [hrepresentative] at hleast
  rw [Components.mem_membersOf]
  constructor
  · rintro ⟨hother, heq⟩
    have hleastOther := hc.least other hother
    rw [Array.getD_eq_getD_getElem?, Array.getElem?_eq_getElem hother, Option.getD_some] at heq
    exact joined_of_isLeast hleast (heq ▸ hleastOther)
  · intro hjoined
    have hother : other < c.representatives.size := by
      rw [hc.size_eq] at hlt ⊢
      exact hg.lt_of_joined hjoined hlt
    refine ⟨hother, ?_⟩
    rw [Array.getD_eq_getD_getElem?, Array.getElem?_eq_getElem hother, Option.getD_some]
    have hleastOther := hc.least other hother
    rw [← component_eq_iff.mpr hjoined] at hleastOther
    exact hleastOther.unique hleast

/-! ## Relationships between different members -/

namespace ListsComponent

variable (h : g.ListsComponent members)
include h

/-- No relationship leads out of a component. -/
theorem closed {node target : Nat} (hnode : node ∈ members) (htarget : target ∈ g.targets node) :
    target ∈ members :=
  (h.mem_iff node hnode target).mpr (joined_of_mem htarget)

theorem nodup : members.Nodup := h.ascending.imp Nat.ne_of_lt

/-- No pair of different members is counted twice, so there are at most as many as pairs. -/
theorem length_inside_le (hg : g.Built) (hparallel : g.parallel = false) :
    (g.inside members).length ≤ members.length * (members.length - 1) := by
  have hnodup := nodup_inside hg hparallel h.nodup
  have hsubset : (g.inside members).toFinset ⊆ members.toFinset.offDiag := by
    intro pair hpair
    obtain ⟨hsource, -, hne, htarget⟩ := mem_inside.mp (List.mem_toFinset.mp hpair)
    rw [Finset.mem_offDiag, List.mem_toFinset, List.mem_toFinset]
    exact ⟨hsource, htarget, hne.symm⟩
  calc (g.inside members).length = (g.inside members).toFinset.card := (List.toFinset_card_of_nodup hnodup).symm
    _ ≤ members.toFinset.offDiag.card := Finset.card_le_card hsubset
    _ = members.length * members.length - members.length := by
      rw [Finset.offDiag_card, List.toFinset_card_of_nodup h.nodup]
    _ = members.length * (members.length - 1) := (Nat.mul_sub_one _ _).symm

end ListsComponent

/-- The members as a graph of their own, without directions and loops. -/
def linked (g : Graph) (members : List Nat) : SimpleGraph {node // node ∈ members} where
  Adj a b := a ≠ b ∧ (b.1 ∈ g.targets a.1 ∨ a.1 ∈ g.targets b.1)
  symm := ⟨fun _ _ hab => ⟨hab.1.symm, hab.2.symm⟩⟩
  loopless := ⟨fun _ haa => haa.1 rfl⟩

theorem card_members (hnodup : members.Nodup) : Nat.card {node // node ∈ members} = members.length := by
  rw [Nat.card_eq_fintype_card, ← List.toFinset_card_of_nodup hnodup]
  exact Fintype.card_of_subtype _ fun node => List.mem_toFinset

/-- A component is connected by the relationships between its members. -/
theorem ListsComponent.connected (h : g.ListsComponent members) : (g.linked members).Connected := by
  have hreach : ∀ (a : {node // node ∈ members}) (b : Nat), g.Joined a.1 b → ∃ hb : b ∈ members,
      (g.linked members).Reachable a ⟨b, hb⟩ := by
    intro a b hjoined
    induction hjoined with
    | refl => exact ⟨a.2, .refl a⟩
    | @tail b c hfirst hlast ih =>
      obtain ⟨hb, hbefore⟩ := ih
      have hc : c ∈ members := (h.mem_iff a.1 a.2 c).mpr (hfirst.tail hlast)
      refine ⟨hc, hbefore.trans ?_⟩
      by_cases heq : b = c
      · subst heq
        exact .refl _
      · exact SimpleGraph.Adj.reachable ⟨fun hsame => heq (congrArg Subtype.val hsame), hlast⟩
  obtain ⟨node, hnode⟩ := List.exists_mem_of_ne_nil members h.nonempty
  have : Nonempty {node // node ∈ members} := ⟨⟨node, hnode⟩⟩
  refine ⟨fun a b => ?_⟩
  obtain ⟨hb, hab⟩ := hreach a b.1 ((h.mem_iff a.1 a.2 b.1).mp b.2)
  exact hab

/-- A connected graph on the members has all members but one as edges at least. -/
theorem ListsComponent.length_le_card_edgeSet (h : g.ListsComponent members) :
    members.length - 1 ≤ Nat.card (g.linked members).edgeSet := by
  have hcard := h.connected.card_vert_le_card_edgeSet_add_one
  rw [card_members h.nodup] at hcard
  omega

/-- Every edge between members is stored at least once. -/
theorem card_edgeSet_le (g : Graph) (members : List Nat) :
    Nat.card (g.linked members).edgeSet ≤ (g.inside members).length := by
  classical
  have hsubset : (g.linked members).edgeFinset.image (Sym2.map Subtype.val) ⊆
      (g.inside members).toFinset.image fun pair => s(pair.1, pair.2) := by
    intro edge hedge
    obtain ⟨⟨a, b⟩, hadj, rfl⟩ := Finset.mem_image.mp hedge
    obtain ⟨hne, hlink⟩ := (SimpleGraph.mem_edgeFinset.mp hadj : (g.linked members).Adj a b)
    have hdistinct : a.1 ≠ b.1 := fun heq => hne (Subtype.ext heq)
    rw [Finset.mem_image]
    rcases hlink with hthere | hback
    · exact ⟨(a.1, b.1), List.mem_toFinset.mpr (mem_inside.mpr ⟨a.2, hthere, hdistinct.symm, b.2⟩), rfl⟩
    · exact ⟨(b.1, a.1), List.mem_toFinset.mpr (mem_inside.mpr ⟨b.2, hback, hdistinct, a.2⟩), Sym2.eq_swap⟩
  calc Nat.card (g.linked members).edgeSet = (g.linked members).edgeFinset.card := by
        rw [Nat.card_eq_fintype_card, SimpleGraph.edgeFinset_card]
    _ = ((g.linked members).edgeFinset.image (Sym2.map Subtype.val)).card :=
        (Finset.card_image_of_injective _ (Sym2.map.injective Subtype.val_injective)).symm
    _ ≤ ((g.inside members).toFinset.image fun pair => s(pair.1, pair.2)).card := Finset.card_le_card hsubset
    _ ≤ (g.inside members).toFinset.card := Finset.card_image_le
    _ ≤ (g.inside members).length := (g.inside members).toFinset_card_le

/-- Where both directions are stored, every edge between members is stored twice. -/
theorem two_mul_card_edgeSet_le (hg : g.Built) (hundirected : g.isUndirected = true) (members : List Nat) :
    2 * Nat.card (g.linked members).edgeSet ≤ (g.inside members).length := by
  classical
  let pairOf : (g.linked members).Dart → Nat × Nat := fun dart => (dart.fst.1, dart.snd.1)
  have hinjective : Function.Injective pairOf := by
    intro d e hde
    obtain ⟨hfst, hsnd⟩ := Prod.mk.injEq .. ▸ hde
    exact SimpleGraph.Dart.ext d e (Prod.ext (Subtype.ext hfst) (Subtype.ext hsnd))
  have hsubset : Finset.univ.image pairOf ⊆ (g.inside members).toFinset := by
    intro pair hpair
    obtain ⟨⟨⟨a, b⟩, hne, hlink⟩, -, rfl⟩ := Finset.mem_image.mp hpair
    have htarget : b.1 ∈ g.targets a.1 := hlink.elim id (hg.mem_comm hundirected).mpr
    exact List.mem_toFinset.mpr (mem_inside.mpr ⟨a.2, htarget, fun heq => hne (Subtype.ext heq.symm), b.2⟩)
  calc 2 * Nat.card (g.linked members).edgeSet = Fintype.card (g.linked members).Dart := by
        rw [SimpleGraph.dart_card_eq_twice_card_edges, Nat.card_eq_fintype_card, SimpleGraph.edgeFinset_card]
    _ = (Finset.univ.image pairOf).card := (Finset.card_image_of_injective _ hinjective).symm
    _ ≤ (g.inside members).toFinset.card := Finset.card_le_card hsubset
    _ ≤ (g.inside members).length := (g.inside members).toFinset_card_le

/-! ## Density -/

/-- Relationships and pairs are counted in words. -/
theorem density_of_two_le {g : Graph} (htwo : 2 ≤ members.length) :
    g.density members = natToFloat ((g.inside members).length % 2 ^ 64) /
      natToFloat (members.length * (members.length - 1) % 2 ^ 64) := by
  rw [density, if_neg (by omega), natToFloat_mod, natToFloat_mod]

/-- A component with several members has targets, so the number of its members is a word. -/
theorem ListsComponent.length_lt (h : g.ListsComponent members) (hg : g.Built) (htwo : 2 ≤ members.length) :
    members.length < 2 ^ 64 := by
  have hrelated := h.length_le_card_edgeSet.trans (card_edgeSet_le g members)
  obtain ⟨⟨source, target⟩, hpair⟩ : ∃ pair, pair ∈ g.inside members :=
    List.exists_mem_of_length_pos (by omega)
  have hnodes : g.nodeCount ≤ largestWord := hg.nodeCount_le (mem_inside.mp hpair).2.1
  have hsubset : members ⊆ List.range g.nodeCount := by
    intro node hnode
    have hjoined := (h.mem_iff source (mem_inside.mp hpair).1 node).mp hnode
    exact List.mem_range.mpr (hg.lt_of_joined hjoined (hg.source_lt (mem_inside.mp hpair).2.1))
  have hlength := (h.nodup.subperm hsubset).length_le
  rw [List.length_range] at hlength
  exact Nat.lt_of_le_of_lt (hlength.trans hnodes) (by decide)

/-- A density is positive and at most one exactly if the word of the relationships is positive and becomes no
larger double than the word of the pairs. -/
theorem density_mem_iff {g : Graph} (htwo : 2 ≤ members.length) (hlt : members.length < 2 ^ 64) :
    0 < g.density members ∧ g.density members ≤ 1 ↔ 0 < (g.inside members).length % 2 ^ 64 ∧
      natToFloat ((g.inside members).length % 2 ^ 64) ≤
        natToFloat (members.length * (members.length - 1) % 2 ^ 64) := by
  obtain ⟨hpos, hone⟩ := @quotient_iff (g.inside members).length _ (pairs_mod_pos htwo hlt)
  rw [density_of_two_le htwo, natToFloat_mod, natToFloat_mod, hpos, hone]

/-- That is so if enough pairs are related, but no more than there are, and their number is a word. -/
theorem density_mem {g : Graph} (hsome : members ≠ []) (hleast : members.length - 1 ≤ (g.inside members).length)
    (hmost : (g.inside members).length ≤ members.length * (members.length - 1))
    (hword : members.length ≤ 2 ^ 32) : 0 < g.density members ∧ g.density members ≤ 1 := by
  have hlength : 0 < members.length := List.length_pos_of_ne_nil hsome
  rcases Nat.lt_or_ge members.length 2 with hless | htwo
  · rw [density, if_pos (by omega)]
    decide
  · have hpairs : members.length * (members.length - 1) < 2 ^ 64 := pairs_lt hword
    have hrelated : 0 < (g.inside members).length := by omega
    rw [density_mem_iff htwo (by omega), Nat.mod_eq_of_lt hpairs, Nat.mod_eq_of_lt (hmost.trans_lt hpairs)]
    refine ⟨hrelated, ?_⟩
    rw [le_iff_value (value_natToFloat hrelated (hmost.trans_lt hpairs)).1
      (value_natToFloat (hrelated.trans_le hmost) hpairs).1]
    exact value_natToFloat_le hrelated hmost hpairs

end Graph

/-! ## Clusters -/

/-- A cluster is a component, and its density is that of a connected set without parallel relationships. -/
structure Cluster.Connected (g : Graph) (cluster : Cluster) : Prop where
  /-- The members are one component, each listed once. -/
  members : g.ListsComponent cluster.members
  /-- No relationship leads out of the cluster. -/
  closed : ∀ node ∈ cluster.members, ∀ target ∈ g.targets node, target ∈ cluster.members
  /-- Enough members are related to connect them. -/
  size_le : 2 ≤ cluster.size → cluster.size - 1 ≤ (g.inside cluster.members).length
  /-- Where both directions are stored, twice as many. -/
  two_mul_size_le : g.isUndirected = true → 2 ≤ cluster.size →
    2 * (cluster.size - 1) ≤ (g.inside cluster.members).length
  /-- There are no more relationships than pairs. -/
  le_pairs : 2 ≤ cluster.size →
    (g.inside cluster.members).length ≤ cluster.size * (cluster.size - 1)
  /-- The share of the pairs that are related is positive and at most one. -/
  share_mem : 2 ≤ cluster.size →
    0 < ((g.inside cluster.members).length : ℚ) / (cluster.size * (cluster.size - 1) : Nat) ∧
      ((g.inside cluster.members).length : ℚ) / (cluster.size * (cluster.size - 1) : Nat) ≤ 1
  /-- The density is that share, both numbers being counted in words; one where there is no pair. -/
  density_eq : cluster.density = if cluster.size ≤ 1 then 1
    else natToFloat ((g.inside cluster.members).length % 2 ^ 64) /
      natToFloat (cluster.size * (cluster.size - 1) % 2 ^ 64)
  /-- So it is positive and at most one exactly if the word of the relationships is positive and becomes no
  larger double than the word of the pairs, -/
  density_mem_iff : 2 ≤ cluster.size →
    (0 < cluster.density ∧ cluster.density ≤ 1 ↔ 0 < (g.inside cluster.members).length % 2 ^ 64 ∧
      natToFloat ((g.inside cluster.members).length % 2 ^ 64) ≤
        natToFloat (cluster.size * (cluster.size - 1) % 2 ^ 64))
  /-- which it always does as long as the number of pairs is a word. -/
  density_mem : cluster.size ≤ 2 ^ 32 → 0 < cluster.density ∧ cluster.density ≤ 1

/-- The clusters of the components are connected, in whatever order groups are listed. -/
theorem Components.Exact.connected {c : Components} (hc : c.Exact g) (hg : g.Built)
    (hparallel : g.parallel = false) {listing : Listing} (hlisting : listing.Complete) {minSize : Nat}
    {cluster : Cluster} (h : cluster ∈ c.clustersListed listing g minSize) : cluster.Connected g := by
  obtain ⟨hmembers, hsome, -, hdensity⟩ := members_of_mem_clustersListed hlisting h
  have hcomponent : g.ListsComponent cluster.members := by
    rw [hmembers] at hsome ⊢
    exact Graph.listsComponent_of_exact hg hc hsome
  have hleast := hcomponent.length_le_card_edgeSet.trans (Graph.card_edgeSet_le g cluster.members)
  have hmost := hcomponent.length_inside_le hg hparallel
  constructor
  case members => exact hcomponent
  case closed => exact fun _ hnode _ htarget => hcomponent.closed hnode htarget
  case size_le => exact fun _ => hleast
  case two_mul_size_le =>
    intro hundirected _
    have htwice := Graph.two_mul_card_edgeSet_le hg hundirected cluster.members
    have hedges := hcomponent.length_le_card_edgeSet
    rw [Cluster.size]
    omega
  case le_pairs => exact fun _ => hmost
  case share_mem =>
    intro htwo
    have hpairs : 0 < cluster.size * (cluster.size - 1) := Nat.mul_pos (by omega) (by omega)
    have hinside : 0 < (g.inside cluster.members).length := by
      rw [Cluster.size] at htwo
      omega
    refine ⟨div_pos (by exact_mod_cast hinside) (by exact_mod_cast hpairs), ?_⟩
    rw [div_le_one (by exact_mod_cast hpairs)]
    exact_mod_cast hmost
  case density_eq =>
    rw [hdensity, Graph.density, natToFloat_mod, natToFloat_mod]
    rfl
  case density_mem_iff =>
    intro htwo
    rw [hdensity]
    exact Graph.density_mem_iff htwo (hcomponent.length_lt hg htwo)
  case density_mem =>
    intro hword
    rw [hdensity]
    exact Graph.density_mem hsome hleast hmost hword

/-! ## Ways -/

/-- If all nodes are joined, one cluster holds all of them. -/
theorem Components.Exact.exists_cluster_of_joined {c : Components} (hc : c.Exact g) (hg : g.Built)
    (hsome : 0 < g.nodeCount) (hjoined : ∀ node < g.nodeCount, g.Joined 0 node) {minSize : Nat}
    (hsize : minSize ≤ g.nodeCount) :
    ∃ cluster ∈ c.clusters g minSize, cluster.members.Perm (List.range g.nodeCount) := by
  have hzero : 0 ∈ c.membersOf (c.representatives.getD 0 0) :=
    Components.mem_membersOf.mpr ⟨by rwa [hc.size_eq], rfl⟩
  have hlists := Graph.listsComponent_of_exact hg hc (List.ne_nil_of_mem hzero)
  have hperm : (c.membersOf (c.representatives.getD 0 0)).Perm (List.range g.nodeCount) := by
    refine (List.perm_ext_iff_of_nodup hlists.nodup List.nodup_range).mpr fun node => ?_
    rw [hlists.mem_iff 0 hzero, List.mem_range]
    exact ⟨fun h => hg.lt_of_joined h hsome, hjoined node⟩
  obtain ⟨cluster, hcluster, -, hmembers⟩ := Components.exists_mem_clustersListed (g := g)
    Listing.complete_toList (List.ne_nil_of_mem hzero)
    (hsize.trans_eq (hperm.length_eq.trans List.length_range).symm)
  exact ⟨cluster, hcluster, hmembers ▸ hperm⟩

/-- Calls for the way over the nodes from `0` to `last`. -/
def wayCalls (last : Nat) : List Call := (List.range last).map fun node => .addDenseTo 0 node (node + 1) 1

theorem offers_wayCalls (last : Nat) (s : RelationshipSettings) :
    offers (.identity (last + 1)) s (wayCalls last) = (List.range last).map fun node => ⟨node, node + 1, 1⟩ := by
  rw [offers, wayCalls, List.filterMap_map, ← List.filterMap_eq_map]
  refine List.filterMap_congr fun node hnode => ?_
  have hlt := List.mem_range.mp hnode
  exact if_pos ⟨Nat.lt_succ_of_lt hlt, Nat.succ_lt_succ hlt⟩

/-- Nothing but neighbours on the way are stored. -/
theorem storedCount_wayCalls (last : Nat) {s : RelationshipSettings} (horientation : s.orientation = .undirected)
    (haggregation : s.aggregation = .single) (u v : Nat) :
    0 < Graph.storedCount (.identity (last + 1)) s (wayCalls last) u v ↔
      u ≤ last ∧ v ≤ last ∧ (v = u + 1 ∨ u = v + 1) := by
  have hnone : s.aggregation ≠ .none := by
    rw [haggregation]
    decide
  have honce : ∀ produced : Nat, (0 < if 0 < produced then 1 else 0) ↔ 0 < produced := by
    intro produced
    split <;> omega
  have hproduces : ∀ node, s.produces u v ⟨node, node + 1, 1⟩ = true ↔
      u = node ∧ v = node + 1 ∨ u = node + 1 ∧ v = node := by
    intro node
    simp only [RelationshipSettings.produces, horientation, Bool.and_eq_true, Bool.or_eq_true, decide_eq_true_eq]
    omega
  rw [Graph.storedCount, if_neg hnone, honce, offers_wayCalls, List.countP_pos_iff]
  constructor
  · rintro ⟨offer, hoffer, hstored⟩
    obtain ⟨node, hnode, rfl⟩ := List.mem_map.mp hoffer
    have hlt := List.mem_range.mp hnode
    have := (hproduces node).mp hstored
    omega
  · rintro ⟨hu, hv, rfl | rfl⟩
    · exact ⟨_, List.mem_map_of_mem (List.mem_range.mpr hv), (hproduces u).mpr (.inl ⟨rfl, rfl⟩)⟩
    · exact ⟨_, List.mem_map_of_mem (List.mem_range.mpr hu), (hproduces v).mpr (.inr ⟨rfl, rfl⟩)⟩

/-- A way of any length that a word can number is a graph. -/
theorem exists_way {last : Nat} (hlast : last < largestWord) : ∃ g : Graph, g.Built ∧
    g.nodeCount = last + 1 ∧ g.isUndirected = true ∧ g.parallel = false ∧
    ∀ u v, v ∈ g.targets u ↔ u ≤ last ∧ v ≤ last ∧ (v = u + 1 ∨ u = v + 1) := by
  obtain ⟨g, hg, hcount, hundirected, hparallel, htargets⟩ := @Graph.exists_built (.identity (last + 1))
    { orientation := .undirected, aggregation := .single, concurrency := 2 } 1 (wayCalls last)
    (IdMap.valid_identity hlast) (by decide) (by decide) (by
      intro call hcall
      obtain ⟨node, -, rfl⟩ := List.mem_map.mp hcall
      exact fun batch hbatch => (Option.mem_some.mp hbatch) ▸ Nat.one_pos)
  replace hcount : g.nodeCount = last + 1 := hcount
  refine ⟨g, hg, hcount, hundirected.trans (by decide), hparallel (by decide), fun u v => ?_⟩
  rcases Nat.lt_or_ge last u with hbeyond | hnode
  · rw [hg.targets_eq_nil (by omega)]
    exact iff_of_false List.not_mem_nil fun h => absurd h.1 (by omega)
  · rw [← List.count_pos_iff, htargets u (Nat.lt_succ_of_le hnode)]
    exact storedCount_wayCalls last rfl rfl u v

/-- All nodes of a way are joined. -/
theorem joined_of_way {last : Nat}
    (htargets : ∀ u v, v ∈ g.targets u ↔ u ≤ last ∧ v ≤ last ∧ (v = u + 1 ∨ u = v + 1)) :
    ∀ node ≤ last, g.Joined 0 node := by
  intro node hnode
  induction node with
  | zero => exact g.equivalence_joined.refl 0
  | succ node ih =>
    have hnext : node + 1 ∈ g.targets node := (htargets node (node + 1)).mpr ⟨by omega, hnode, .inl rfl⟩
    exact g.equivalence_joined.trans (ih (by omega)) (Graph.joined_of_mem hnext)

/-- There is one relationship each way between neighbours. -/
theorem length_inside_of_way {last : Nat} (hg : g.Built) (hparallel : g.parallel = false)
    (htargets : ∀ u v, v ∈ g.targets u ↔ u ≤ last ∧ v ≤ last ∧ (v = u + 1 ∨ u = v + 1))
    (hmembers : members.Nodup) : (g.inside members).length ≤ 2 * last := by
  let forth := (List.range last).map fun node => (node, node + 1)
  let back := (List.range last).map fun node => (node + 1, node)
  have hsubset : g.inside members ⊆ forth ++ back := by
    rintro ⟨u, v⟩ hpair
    obtain ⟨hu, hv, rfl | rfl⟩ := (htargets u v).mp (Graph.mem_inside.mp hpair).2.1
    · exact List.mem_append_left _ (List.mem_map.mpr ⟨u, List.mem_range.mpr hv, rfl⟩)
    · exact List.mem_append_right _ (List.mem_map.mpr ⟨v, List.mem_range.mpr hu, rfl⟩)
  have hlength := ((Graph.nodup_inside hg hparallel hmembers).subperm hsubset).length_le
  simp only [forth, back, List.length_append, List.length_map, List.length_range] at hlength
  omega

/-! ## All clusters -/

/-- **Density is bounded by connectivity.**  For every graph without parallel relationships, of any number of
types with any orientations and with loops: in whatever order the workers of a crew take their steps until
all of them are back, in whatever order groups are listed and however large clusters have to be, every
cluster is a component that no relationship leaves, the relationships between its `n` different members are
at least `n - 1`, twice as many where both directions are stored, and at most `n * (n - 1)`; so the share of
the pairs that are related lies between zero, which it exceeds, and one.  The density, for which both numbers
are words, lies there exactly if the first is positive as a word and becomes no larger double than the second,
as it does up to `2 ^ 32` members.  The run that nobody stops is one of these. -/
theorem density_bounded_by_connectivity {g : Graph} (hg : g.Built) (hparallel : g.parallel = false) :
    (∀ (pool : Pool) (concurrency : Nat) (progress : Progress) (schedule : List Nat),
      let crew := (Crew.forPartitions pool (rangePartition g.nodeCount concurrency) false progress).run
        (StopAfter.task none) schedule
      crew.finished = true → ∀ listing : Listing, listing.Complete → ∀ minSize,
        ∀ cluster ∈ Components.clustersListed listing g
          ⟨(Components.setsOfTrace g crew.visits.toList).roots, crew.stopped⟩ minSize, cluster.Connected g) ∧
      ∀ settings : ComponentSettings, 1 ≤ settings.concurrency →
        ∃ c, Components.compute g settings none = .ok c ∧ c.terminated = false ∧
          (∀ listing : Listing, listing.Complete → ∀ minSize,
            ∀ cluster ∈ c.clustersListed listing g minSize, cluster.Connected g) ∧
          ∀ minSize, ∀ cluster ∈ c.clusters g minSize, cluster.Connected g := by
  refine ⟨?_, fun settings hconcurrency => ?_⟩
  · intro pool concurrency progress schedule crew hfinished listing hlisting minSize cluster hcluster
    exact (Components.exact_of_run hg pool concurrency progress schedule hfinished _).connected hg hparallel
      hlisting hcluster
  · obtain ⟨c, hcompute, hterminated, hexact⟩ := Components.exists_compute hg settings hconcurrency
    exact ⟨c, hcompute, hterminated,
      fun _ hlisting _ _ hcluster => hexact.connected hg hparallel hlisting hcluster,
      fun _ _ hcluster => hexact.connected hg hparallel Listing.complete_toList hcluster⟩

/-- A way over three nodes, the last of which has a loop, is one cluster: four of six pairs are needed to
connect it. -/
theorem density_of_way_with_loop : ∃ g : Graph, g.Built ∧ g.isUndirected = true ∧ g.parallel = false ∧
    ∃ c, Components.compute g { concurrency := 2 } none = .ok c ∧ ∃ cluster ∈ c.clusters g 3,
      cluster.size = 3 ∧ 4 ≤ (g.inside cluster.members).length ∧ (g.inside cluster.members).length ≤ 6 ∧
      0 < cluster.density ∧ cluster.density ≤ 1 := by
  obtain ⟨g, hg, hcount, hundirected, hparallel, htargets⟩ := @Graph.exists_built (.identity 3)
    { orientation := .undirected, aggregation := .single, concurrency := 2 } 0
    [.add 0 1 none, .add 1 2 none, .add 2 2 none] (IdMap.valid_identity (by decide)) (by decide) (by decide)
    (by decide)
  replace hcount : g.nodeCount = 3 := hcount
  replace hundirected : g.isUndirected = true := hundirected.trans (by decide)
  replace hparallel := hparallel (by decide)
  have hfirst : g.Joined 0 1 := Graph.joined_of_mem (List.count_pos_iff.mp (by
    rw [htargets 0 (by decide)]
    decide))
  have hsecond : g.Joined 1 2 := Graph.joined_of_mem (List.count_pos_iff.mp (by
    rw [htargets 1 (by decide)]
    decide))
  have hjoined : ∀ node < g.nodeCount, g.Joined 0 node := by
    intro node hnode
    obtain rfl | rfl | rfl : node = 0 ∨ node = 1 ∨ node = 2 := by omega
    · exact g.equivalence_joined.refl 0
    · exact hfirst
    · exact g.equivalence_joined.trans hfirst hsecond
  obtain ⟨-, hcompute⟩ := density_bounded_by_connectivity hg hparallel
  obtain ⟨c, hc, -, -, hclusters⟩ := hcompute { concurrency := 2 } (by decide)
  have hexact : c.Exact g := by
    obtain ⟨c', hc', -, hexact⟩ := Components.exists_compute hg { concurrency := 2 } (by decide)
    rwa [Except.ok.inj (hc.symm.trans hc')]
  obtain ⟨cluster, hcluster, hperm⟩ :=
    hexact.exists_cluster_of_joined hg (by omega) hjoined hcount.ge
  have hsize : cluster.size = 3 := by rw [Cluster.size, hperm.length_eq, List.length_range, hcount]
  have hconnected := hclusters 3 cluster hcluster
  have htwice := hconnected.two_mul_size_le hundirected (by omega)
  have hmost := hconnected.le_pairs (by omega)
  rw [hsize] at htwice hmost
  exact ⟨g, hg, hundirected, hparallel, c, hc, cluster, hcluster, hsize, htwice, hmost,
    hconnected.density_mem (by rw [hsize]; decide)⟩

/-- On a way of `2 ^ 32 + 1` nodes the number of pairs wraps round to `2 ^ 32`, half of the number of
relationships: the density becomes two. -/
theorem density_of_long_way : ∃ g : Graph, g.Built ∧ g.isUndirected = true ∧ g.parallel = false ∧
    (∀ u v, v ∈ g.targets u ↔ u ≤ 2 ^ 32 ∧ v ≤ 2 ^ 32 ∧ (v = u + 1 ∨ u = v + 1)) ∧
    ∃ c, Components.compute g { concurrency := 2 } none = .ok c ∧ c.terminated = false ∧
      ∃ cluster ∈ c.clusters g 2, cluster.size = 2 ^ 32 + 1 ∧
        (g.inside cluster.members).length = 2 ^ 33 ∧ cluster.density = 2 ∧ ¬cluster.density ≤ 1 := by
  obtain ⟨g, hg, hcount, hundirected, hparallel, htargets⟩ := @exists_way (2 ^ 32) (by decide)
  obtain ⟨c, hc, hterminated, hexact⟩ := Components.exists_compute hg { concurrency := 2 } (by decide)
  obtain ⟨cluster, hcluster, hperm⟩ := @Components.Exact.exists_cluster_of_joined g c hexact hg (by omega)
    (fun node hnode => joined_of_way htargets node (by omega)) 2 (by omega)
  have hconnected := hexact.connected hg hparallel Listing.complete_toList hcluster
  have hsize : cluster.size = 2 ^ 32 + 1 := by
    rw [Cluster.size, hperm.length_eq, List.length_range, hcount]
  have hinside : (g.inside cluster.members).length = 2 ^ 33 := by
    have hleast := hconnected.two_mul_size_le hundirected (by omega)
    have hmost := length_inside_of_way hg hparallel htargets hconnected.members.nodup
    omega
  have hdensity : cluster.density = 2 := by
    rw [hconnected.density_eq, if_neg (by omega), hinside, hsize]
    decide +kernel
  refine ⟨g, hg, hundirected, hparallel, htargets, c, hc, hterminated, cluster, hcluster, hsize, hinside,
    hdensity, ?_⟩
  rw [hdensity]
  decide +kernel

end PackedGraph
