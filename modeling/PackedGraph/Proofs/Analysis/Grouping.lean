import PackedGraph.Proofs.Analysis.Clusters

/-!
# Clusters are the classes of nodes

The order of clusters leaves no two groups equal, because each has a representative of its own.  So the clusters
are the same in whatever order tables list their groups, and however many nodes are grouped at a time: for every
representative with enough nodes there is one, and it has these nodes.

Main statements: `mergeSort_largerFirst`, `Components.Lists.materialized` and `clusters_partition_nodes`.
-/

namespace PackedGraph

/-! ## The larger first -/

section LargerFirst

variable {α : Type} {size name : α → Nat} {xs ys : List α}

/-- The larger comes first, and of equal ones the one with the smaller name. -/
def largerFirst (size name : α → Nat) (a b : α) : Bool :=
  decide (size b < size a) || (size a == size b && decide (name a ≤ name b))

theorem largerFirst_iff {a b : α} :
    largerFirst size name a b = true ↔ size b < size a ∨ (size a = size b ∧ name a ≤ name b) := by
  simp [largerFirst]

theorem largerFirst_trans (a b c : α) (hab : largerFirst size name a b) (hbc : largerFirst size name b c) :
    largerFirst size name a c := by
  rw [largerFirst_iff] at *
  omega

theorem largerFirst_total (a b : α) : (largerFirst size name a b || largerFirst size name b a) = true := by
  rw [Bool.or_eq_true, largerFirst_iff, largerFirst_iff]
  omega

theorem pairwise_largerFirst (size name : α → Nat) (xs : List α) :
    (xs.mergeSort (largerFirst size name)).Pairwise fun a b => largerFirst size name a b = true :=
  List.pairwise_mergeSort largerFirst_trans largerFirst_total xs

/-- No two elements are equal in this order if no two have one name, so the order before sorting is forgotten. -/
theorem mergeSort_largerFirst (hperm : xs.Perm ys) (hnames : xs.Pairwise fun a b => name a ≠ name b) :
    xs.mergeSort (largerFirst size name) = ys.mergeSort (largerFirst size name) := by
  have hsorted := List.mergeSort_perm xs (largerFirst size name)
  refine List.Perm.eq_of_pairwise (fun a b ha hb hab hba => ?_) (pairwise_largerFirst size name xs)
    (pairwise_largerFirst size name ys) (hsorted.trans (hperm.trans (List.mergeSort_perm ys _).symm))
  rw [largerFirst_iff] at hab hba
  have ha' := hsorted.mem_iff.mp ha
  have hb' := hperm.mem_iff.mpr ((List.mergeSort_perm ys _).mem_iff.mp hb)
  have hname : name a = name b := by omega
  exact List.inj_on_of_nodup_map (List.pairwise_map.mpr hnames) ha' hb' hname

/-- Nor are two neighbours equal after sorting. -/
theorem pairwise_mergeSort_largerFirst (hnames : xs.Pairwise fun a b => name a ≠ name b) :
    (xs.mergeSort (largerFirst size name)).Pairwise fun a b =>
      size b < size a ∨ (size a = size b ∧ name a < name b) := by
  have hdistinct := ((List.mergeSort_perm xs (largerFirst size name)).pairwise_iff
    fun {a b} (hab : name a ≠ name b) => hab.symm).mpr hnames
  refine ((pairwise_largerFirst size name xs).and hdistinct).imp fun {a b} h => ?_
  obtain ⟨hle, hne⟩ := h
  rw [largerFirst_iff] at hle
  omega

end LargerFirst

namespace Graph

/-- The table of degrees can be listed in any order. -/
theorem centralByDegree_eq (g : Graph) (members : List Nat) (top : Nat) {degrees : List (Nat × Nat)}
    (h : degrees.Perm (g.insideDegrees members).toList) :
    g.centralByDegree members top =
      ((degrees.mergeSort (largerFirst Prod.snd Prod.fst)).take top).map Prod.fst := by
  rw [mergeSort_largerFirst h (distinct_of_perm_toList h)]
  rfl

end Graph

/-! ## Groups as clusters -/

namespace Components

variable {c : Components} {g : Graph} {minSize : Nat}

/-- As many nodes are assigned to a representative as the array of representatives says. -/
theorem length_membersOf (c : Components) (representative : Nat) :
    (c.membersOf representative).length = c.representatives.toList.count representative := by
  have hlist : c.representatives.toList =
      (List.range c.representatives.size).map fun node => c.representatives.getD node node := by
    refine List.ext_getElem (by simp) fun node hleft hright => ?_
    rw [Array.length_toList] at hleft
    simp [hleft]
  rw [hlist, List.count_eq_countP, List.countP_map, List.countP_eq_length_filter]
  rfl

theorem mem_membersOf_iff {representative node : Nat} :
    node ∈ c.membersOf representative ↔ c.representatives[node]? = some representative := by
  rw [mem_membersOf, Array.getElem?_eq_some_iff]
  constructor
  · rintro ⟨hnode, heq⟩
    exact ⟨hnode, by simpa [Array.getD, hnode] using heq⟩
  · rintro ⟨hnode, heq⟩
    exact ⟨hnode, by simpa [Array.getD, hnode] using heq⟩

/-- Clusters are the sets of nodes with one representative, as far as they are large enough. -/
structure Materialized (g : Graph) (c : Components) (minSize : Nat) (clusters : List Cluster) : Prop where
  /-- A representative has a cluster just in case enough nodes are assigned to it, and at least one. -/
  exists_iff : ∀ representative, (∃ cluster ∈ clusters, cluster.representative = representative) ↔
    max 1 minSize ≤ c.representatives.toList.count representative
  /-- It has only one. -/
  one : clusters.Pairwise fun a b => a.representative ≠ b.representative
  /-- The members are the nodes that are assigned to the representative. -/
  mem_iff : ∀ cluster ∈ clusters, ∀ node,
    node ∈ cluster.members ↔ c.representatives[node]? = some cluster.representative
  /-- They ascend. -/
  ascending : ∀ cluster ∈ clusters, cluster.members.Pairwise (· < ·)
  /-- The size is their number. -/
  size_eq : ∀ cluster ∈ clusters, cluster.size = c.representatives.toList.count cluster.representative
  /-- The larger comes first, and of equal ones the one with the smaller representative. -/
  ordered : clusters.Pairwise fun a b =>
    b.size < a.size ∨ (a.size = b.size ∧ a.representative < b.representative)
  /-- They are numbered in this order. -/
  ids : clusters.map Cluster.id = List.range clusters.length
  /-- No node is in two of them. -/
  disjoint : clusters.Pairwise fun a b => a.members.Disjoint b.members
  /-- The rest says how the members are related, in whatever order the table of their degrees is listed. -/
  described : ∀ cluster ∈ clusters, cluster.density = g.density cluster.members ∧
    cluster.centralByBetweenness = none ∧
    ∀ degrees : List (Nat × Nat), degrees.Perm (g.insideDegrees cluster.members).toList →
      cluster.centralByDegree =
        ((degrees.mergeSort (largerFirst Prod.snd Prod.fst)).take centralCount).map Prod.fst

section Listed

variable {length : Nat} {listings : List (List (Nat × Array Nat))} {listed : List (Nat × Array Nat)}

/-- Different groups have different representatives. -/
theorem Lists.distinct (h : c.Lists length listings listed) : listed.Pairwise fun a b => a.1 ≠ b.1 :=
  distinct_of_perm_toList h.joined

/-- So do the groups that become clusters. -/
theorem pairwise_large (g : Graph) (minSize : Nat) (hlisted : listed.Pairwise fun a b => a.1 ≠ b.1) :
    ((listed.filter fun group => decide (minSize ≤ group.2.size)).map (clusterOf g)).Pairwise
      fun a b => a.representative ≠ b.representative :=
  List.pairwise_map.mpr (hlisted.filter _)

/-- However groups are listed, the same ones are listed in the end. -/
theorem Lists.perm (h : c.Lists length listings listed) {length' : Nat}
    {listings' : List (List (Nat × Array Nat))} {listed' : List (Nat × Array Nat)}
    (h' : c.Lists length' listings' listed') : listed.Perm listed' := by
  have hequiv : (Groups.join listings).Equiv (Groups.join listings') :=
    Std.HashMap.Equiv.of_forall_getElem?_eq fun key => (h.hold key).trans (h'.hold key).symm
  exact h.joined.trans (hequiv.toList_perm.trans h'.joined.symm)

/-- What is listed becomes the same clusters in any order. -/
theorem clustersFrom_perm {listed' : List (Nat × Array Nat)} (hperm : listed.Perm listed')
    (hlisted : listed.Pairwise fun a b => a.1 ≠ b.1) :
    clustersFrom g minSize listed = clustersFrom g minSize listed' := by
  have hsorted := @mergeSort_largerFirst _ Cluster.size _ _ _ ((hperm.filter _).map (clusterOf g))
    (pairwise_large g minSize hlisted)
  exact congrArg numbered hsorted

/-- What clusters have in common before they are numbered, they keep. -/
theorem pairwise_numbered {clusters : List Cluster} {r : Cluster → Cluster → Prop} (h : clusters.Pairwise r)
    (hid : ∀ a b : Cluster, ∀ i j, r a b → r { a with id := i } { b with id := j }) :
    (numbered clusters).Pairwise r := by
  refine List.pairwise_map.mpr ((List.pairwise_map.mp ?_).imp fun {a b} hab => hid a.1 b.1 a.2 b.2 hab)
  rwa [List.zipIdx_map_fst]

/-- Numbering counts from zero. -/
theorem ids_numbered (clusters : List Cluster) :
    (numbered clusters).map Cluster.id = List.range (numbered clusters).length := by
  rw [numbered, List.length_map, List.length_zipIdx, List.map_map, List.range_eq_range',
    ← List.zipIdx_map_snd 0 clusters]
  rfl

theorem Lists.members_eq (h : c.Lists length listings listed) {cluster : Cluster}
    (hcluster : cluster ∈ clustersFrom g minSize listed) :
    cluster.members = c.membersOf cluster.representative := (h.members_of_mem hcluster).1

theorem Lists.exists_iff (h : c.Lists length listings listed) (representative : Nat) :
    (∃ cluster ∈ clustersFrom g minSize listed, cluster.representative = representative) ↔
      max 1 minSize ≤ c.representatives.toList.count representative := by
  rw [← length_membersOf, Nat.max_le, Nat.one_le_iff_ne_zero, ne_eq, List.length_eq_zero_iff]
  constructor
  · rintro ⟨cluster, hcluster, rfl⟩
    obtain ⟨hmembers, hsome, hsize, -⟩ := h.members_of_mem hcluster
    rw [Cluster.size] at hsize
    rw [← hmembers]
    exact ⟨hsome, hsize⟩
  · rintro ⟨hsome, hsize⟩
    obtain ⟨cluster, hcluster, hrepresentative, -⟩ := h.exists_mem hsome hsize
    exact ⟨cluster, hcluster, hrepresentative⟩

/-- **Groups become clusters** in the same way, however many nodes are grouped at a time and in whatever order
groups are listed. -/
theorem Lists.materialized (h : c.Lists length listings listed) :
    c.Materialized g minSize (clustersFrom g minSize listed) := by
  have hlarge := pairwise_large g minSize h.distinct
  have hone : (clustersFrom g minSize listed).Pairwise fun a b => a.representative ≠ b.representative :=
    pairwise_numbered (((List.mergeSort_perm _ clusterLe).pairwise_iff fun {a b} hab => hab.symm).mpr hlarge)
      fun _ _ _ _ hab => hab
  constructor
  case exists_iff => exact h.exists_iff
  case one => exact hone
  case mem_iff =>
    intro cluster hcluster node
    rw [h.members_eq hcluster, mem_membersOf_iff]
  case ascending =>
    intro cluster hcluster
    rw [h.members_eq hcluster]
    exact c.pairwise_membersOf _
  case size_eq =>
    intro cluster hcluster
    rw [Cluster.size, h.members_eq hcluster, length_membersOf]
  case ordered => exact pairwise_numbered (pairwise_mergeSort_largerFirst hlarge) fun _ _ _ _ hab => hab
  case ids => exact ids_numbered _
  case disjoint =>
    refine hone.imp_of_mem fun {a b} ha hb hne node hnode hnode' => hne ?_
    rw [h.members_eq ha, mem_membersOf_iff] at hnode
    rw [h.members_eq hb, mem_membersOf_iff] at hnode'
    exact Option.some.inj (hnode.symm.trans hnode')
  case described =>
    intro cluster hcluster
    obtain ⟨group, -, -, heq⟩ := mem_clustersFrom hcluster
    rw [heq]
    exact ⟨rfl, rfl, fun degrees hdegrees => g.centralByDegree_eq _ _ hdegrees⟩

end Listed

end Components

/-- **Clusters are the classes of nodes.**  For every graph, every assignment of representatives to nodes and every
least size: however many nodes are grouped at a time, and in whatever order the tables of groups are listed, the
clusters are the same.  There is one for each representative that enough nodes are assigned to, at least one, and no
other; its members are these nodes, ascending.  The larger come first, of equal ones those with the smaller
representative, and the clusters are numbered in this order. -/
theorem clusters_partition_nodes (g : Graph) (c : Components) (minSize : Nat) :
    c.Materialized g minSize (c.clusters g minSize) ∧
      ∀ (length : Nat) (listings : List (List (Nat × Array Nat))) (listed : List (Nat × Array Nat)),
        c.Lists length listings listed → Components.clustersFrom g minSize listed = c.clusters g minSize := by
  have hrun := Components.lists_group Listing.complete_toList c
  refine ⟨hrun.materialized, fun length listings listed h => ?_⟩
  exact Components.clustersFrom_perm (h.perm hrun) h.distinct

/-- Six nodes and their representatives. -/
def sixAssigned : Components := ⟨#[7, 2, 7, 2, 2, 5], false⟩

/-- Two nodes are grouped at a time, and every table is listed in reverse.  Of three representatives two have enough
nodes, and the one with three of them comes first. -/
theorem clusters_of_six_assigned :
    ∃ listings listed, sixAssigned.Lists 2 listings listed ∧ ∃ first second,
      Components.clustersFrom default 2 listed = [first, second] ∧
        (first.id = 0 ∧ first.representative = 2 ∧ first.members = [1, 3, 4]) ∧
        second.id = 1 ∧ second.representative = 7 ∧ second.members = [0, 2] := by
  have hlisting : Listing.Complete fun groups => groups.toList.reverse := fun _ => List.reverse_perm _
  have hlists := Components.lists_join hlisting sixAssigned (by decide : 0 < 2)
  obtain ⟨hclusters, hsame⟩ := clusters_partition_nodes default sixAssigned 2
  have hmembers : ∀ cluster ∈ sixAssigned.clusters default 2,
      cluster.members = sixAssigned.membersOf cluster.representative :=
    fun _ hcluster => (Components.lists_group Listing.complete_toList sixAssigned).members_eq hcluster
  refine ⟨_, _, hlists, ?_⟩
  rw [hsame _ _ _ hlists]
  generalize sixAssigned.clusters default 2 = clusters at hclusters hmembers ⊢
  -- two and seven are the representatives of at least two nodes
  have hlarge : ∀ representative, max 1 2 ≤ sixAssigned.representatives.toList.count representative ↔
      representative ∈ [2, 7] := by
    intro representative
    simp only [sixAssigned, List.count_cons, List.count_nil, List.mem_cons, List.not_mem_nil, beq_iff_eq]
    grind
  have hrepresentatives : (clusters.map Cluster.representative).Perm [2, 7] := by
    refine (List.perm_ext_iff_of_nodup (List.pairwise_map.mpr hclusters.one) (by decide)).mpr fun representative => ?_
    rw [← hlarge, ← hclusters.exists_iff, List.mem_map]
  obtain ⟨first, second, rfl⟩ : ∃ first second, clusters = [first, second] :=
    List.length_eq_two.mp (by simpa using hrepresentatives.length_eq)
  have hids : [first.id, second.id] = [0, 1] := hclusters.ids
  have hordered := List.pairwise_pair.mp hclusters.ordered
  have hfirst := hclusters.size_eq first (by simp)
  have hsecond := hclusters.size_eq second (by simp)
  rw [List.map_cons, List.map_singleton] at hrepresentatives
  -- the other order would put the smaller of the two first
  obtain ⟨htwo, hseven⟩ | ⟨hseven, htwo⟩ : (first.representative = 2 ∧ second.representative = 7) ∨
      (first.representative = 7 ∧ second.representative = 2) := by
    have hnodup := hrepresentatives.nodup_iff.mpr (by decide)
    have hmem := fun representative => hrepresentatives.mem_iff (a := representative)
    grind
  · simp only [List.cons.injEq, and_true] at hids
    refine ⟨first, second, rfl, ⟨hids.1, htwo, ?_⟩, hids.2, hseven, ?_⟩
    · rw [hmembers first (by simp), htwo]
      decide
    · rw [hmembers second (by simp), hseven]
      decide
  · rw [hseven] at hfirst
    rw [htwo] at hsecond
    have hfew : sixAssigned.representatives.toList.count 7 = 2 := by decide
    have hmany : sixAssigned.representatives.toList.count 2 = 3 := by decide
    omega

end PackedGraph
