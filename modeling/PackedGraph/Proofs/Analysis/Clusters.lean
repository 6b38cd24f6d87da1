import Mathlib.Data.List.Perm.Basic
import PackedGraph.Analysis.Clusters
import PackedGraph.Proofs.Graph.Built
import PackedGraph.Proofs.Workers.Partition

/-!
# Grouping nodes by their representatives

Groups are read as a function from representatives to lists of nodes.  Joining groups appends these lists, so
grouping chunk by chunk leaves for every representative its nodes in ascending order, however long chunks are and
in whatever order groups are listed.

Main statements: `Components.Lists.hold`, `Components.Lists.members_of_mem` and `Components.Lists.exists_mem`.
-/

namespace PackedGraph

/-- A way to list groups that lists each of them once. -/
def Listing.Complete (listing : Listing) : Prop := ∀ groups, (listing groups).Perm groups.toList

/-- Listing a table as it is lists every group once. -/
theorem Listing.complete_toList : Listing.Complete Std.HashMap.toList := fun _ => .refl _

/-- A table lists every key once, in whatever order. -/
theorem distinct_of_perm_toList {α : Type} {table : Std.HashMap Nat α} {entries : List (Nat × α)}
    (h : entries.Perm table.toList) : entries.Pairwise fun a b => a.1 ≠ b.1 := by
  refine (h.pairwise_iff fun {a b} hab => hab.symm).mpr ?_
  exact Std.HashMap.distinct_keys_toList.imp fun hab => by simpa using hab

namespace Groups

/-- The group of some members; there is none where there are no members. -/
def ofMembers (members : List Nat) : Option (Array Nat) :=
  if members = [] then none else some members.toArray

theorem ofMembers_of_ne_nil {members : List Nat} (h : members ≠ []) : ofMembers members = some members.toArray :=
  if_neg h

/-- Groups hold these members under their keys, and no others. -/
def Hold (groups : Groups) (members : Nat → List Nat) : Prop := ∀ key, groups[key]? = ofMembers (members key)

/-- The members that some listed groups give to a key. -/
def listedAt (entries : List (Nat × Array Nat)) (key : Nat) : List Nat :=
  entries.flatMap fun entry => if entry.1 = key then entry.2.toList else []

variable {groups : Groups} {members : Nat → List Nat}

theorem hold_empty : Hold ∅ fun _ => [] := by simp [Hold, ofMembers]

theorem listedAt_cons (entry : Nat × Array Nat) (entries : List (Nat × Array Nat)) (key : Nat) :
    listedAt (entry :: entries) key =
      (if entry.1 = key then entry.2.toList else []) ++ listedAt entries key := List.flatMap_cons ..

/-- One more group is appended to what its key has. -/
theorem Hold.append (h : groups.Hold members) (entry : Nat × Array Nat) (hsome : entry.2.toList ≠ []) :
    (groups.append entry.1 entry.2).Hold fun key =>
      members key ++ if entry.1 = key then entry.2.toList else [] := by
  intro key
  rw [Groups.append, Std.HashMap.getElem?_alter]
  dsimp only
  by_cases hkey : entry.1 = key
  · subst hkey
    rw [if_pos (by simp), if_pos rfl, ofMembers_of_ne_nil (by simp [hsome]), h entry.1]
    by_cases hnone : members entry.1 = []
    · simp [hnone, ofMembers]
    · simp [ofMembers_of_ne_nil hnone]
  · rw [if_neg (by simpa using hkey), if_neg hkey, List.append_nil]
    exact h key

/-- Append many more groups, in the order in which they come. -/
def appendAll (groups : Groups) (entries : List (Nat × Array Nat)) : Groups :=
  entries.foldl (fun groups entry => groups.append entry.1 entry.2) groups

/-- Every key gets what the groups give to it. -/
theorem Hold.appendAll (h : groups.Hold members) (entries : List (Nat × Array Nat))
    (hsome : ∀ entry ∈ entries, entry.2.toList ≠ []) :
    (groups.appendAll entries).Hold fun key => members key ++ listedAt entries key := by
  induction entries generalizing groups members with
  | nil => simpa [Groups.appendAll, listedAt] using h
  | cons entry entries ih =>
    rw [List.forall_mem_cons] at hsome
    have hstep := ih (h.append entry hsome.1) hsome.2
    simpa only [Groups.appendAll, List.foldl_cons, listedAt_cons, List.append_assoc] using hstep

/-- Join groups that are listed table by table. -/
def join (listings : List (List (Nat × Array Nat))) : Groups := listings.foldl appendAll ∅

theorem listedAt_eq_nil {entries : List (Nat × Array Nat)} {key : Nat}
    (h : ∀ entry ∈ entries, entry.1 ≠ key) : listedAt entries key = [] :=
  List.flatMap_eq_nil_iff.mpr fun entry hentry => if_neg (h entry hentry)

/-- However groups are listed, each key gets its own members. -/
theorem Hold.listedAt_eq (h : groups.Hold members) {entries : List (Nat × Array Nat)}
    (hentries : entries.Perm groups.toList) (key : Nat) : listedAt entries key = members key := by
  have hdistinct := distinct_of_perm_toList hentries
  have hmem : ∀ entry ∈ entries, groups[entry.1]? = some entry.2 := fun entry hentry =>
    Std.HashMap.mem_toList_iff_getElem?_eq_some.mp (hentries.mem_iff.mp hentry)
  by_cases hnone : members key = []
  · rw [hnone]
    refine listedAt_eq_nil fun entry hentry heq => ?_
    have hfound := hmem entry hentry
    rw [heq, h key, hnone] at hfound
    exact absurd hfound.symm (Option.some_ne_none _)
  · -- the group of the key is listed, and no other with that key
    have hfound : (key, (members key).toArray) ∈ entries := by
      rw [hentries.mem_iff, Std.HashMap.mem_toList_iff_getElem?_eq_some, h key, ofMembers_of_ne_nil hnone]
    obtain ⟨front, back, rfl⟩ := List.append_of_mem hfound
    obtain ⟨-, hback, hfront⟩ := List.pairwise_append.mp hdistinct
    have hfrontNone : listedAt front key = [] := listedAt_eq_nil fun entry hentry =>
      hfront entry hentry _ List.mem_cons_self
    have hbackNone : listedAt back key = [] := listedAt_eq_nil fun entry hentry =>
      ((List.pairwise_cons.mp hback).1 entry hentry).symm
    rw [listedAt, List.flatMap_append, ← listedAt, ← listedAt, listedAt_cons, hfrontNone, hbackNone, if_pos rfl]
    simp

theorem Hold.toList_ne_nil (h : groups.Hold members) {entry : Nat × Array Nat} (hentry : entry ∈ groups.toList) :
    entry.2.toList ≠ [] := by
  have hfound := Std.HashMap.mem_toList_iff_getElem?_eq_some.mp hentry
  rw [h entry.1] at hfound
  intro hnil
  by_cases hnone : members entry.1 = []
  · rw [hnone] at hfound
    exact absurd hfound.symm (Option.some_ne_none _)
  · rw [ofMembers_of_ne_nil hnone, Option.some.injEq] at hfound
    rw [← hfound] at hnil
    exact hnone hnil

end Groups

/-! ## Relationships inside a set -/

namespace Graph

variable {g : Graph} {members : List Nat}

theorem mem_inside {pair : Nat × Nat} : pair ∈ g.inside members ↔
    pair.1 ∈ members ∧ pair.2 ∈ g.targets pair.1 ∧ pair.2 ≠ pair.1 ∧ pair.2 ∈ members := by
  obtain ⟨source, target⟩ := pair
  simp only [inside, List.mem_flatMap, List.mem_map, List.mem_filter, Bool.and_eq_true, bne_iff_ne,
    Std.HashSet.contains_ofList, List.contains_iff_mem, Prod.mk.injEq]
  constructor
  · rintro ⟨node, hnode, other, ⟨hother, hne, hinside⟩, rfl, rfl⟩
    exact ⟨hnode, hother, hne, hinside⟩
  · rintro ⟨hsource, htarget, hne, hinside⟩
    exact ⟨source, hsource, target, ⟨htarget, hne, hinside⟩, rfl, rfl⟩

/-- Without parallel relationships no pair of members is found twice. -/
theorem nodup_inside (hg : g.Built) (hparallel : g.parallel = false) (hmembers : members.Nodup) :
    (g.inside members).Nodup := by
  refine List.nodup_flatMap.mpr ⟨fun node _ => ?_, hmembers.imp fun {a b} hne => ?_⟩
  · have htargets : (g.targets node).Nodup := (hg.strict hparallel node).imp Nat.ne_of_lt
    exact (htargets.filter _).map fun a b hab => congrArg Prod.snd hab
  · intro pair ha hb
    obtain ⟨target, -, rfl⟩ := List.mem_map.mp ha
    obtain ⟨target', -, heq⟩ := List.mem_map.mp hb
    exact hne (congrArg Prod.fst heq).symm

end Graph

/-! ## Clusters -/

namespace Components

variable {c : Components} {g : Graph} {listing : Listing} {minSize : Nat}

/-- The nodes that are assigned to a representative, ascending. -/
def membersOf (c : Components) (representative : Nat) : List Nat :=
  (List.range c.representatives.size).filter fun node => c.representatives.getD node node == representative

theorem mem_membersOf {representative node : Nat} : node ∈ c.membersOf representative ↔
    node < c.representatives.size ∧ c.representatives.getD node node = representative := by
  rw [membersOf, List.mem_filter, List.mem_range, beq_iff_eq]

theorem pairwise_membersOf (c : Components) (representative : Nat) :
    (c.membersOf representative).Pairwise (· < ·) := List.pairwise_lt_range.filter _

/-- The groups of one chunk. -/
theorem hold_groupChunk (c : Components) (chunk : Partition) :
    (c.groupChunk chunk).Hold fun key =>
      chunk.nodes.filter fun node => c.representatives.getD node node == key := by
  have hfold := Groups.hold_empty.appendAll
    (chunk.nodes.map fun node => (c.representatives.getD node node, #[node])) (by simp)
  rw [Groups.appendAll, List.foldl_map] at hfold
  refine fun key => (hfold key).trans ?_
  have hlisted : Groups.listedAt (chunk.nodes.map fun node => (c.representatives.getD node node, #[node])) key =
      chunk.nodes.filter fun node => c.representatives.getD node node == key := by
    induction chunk.nodes with
    | nil => rfl
    | cons node nodes ih =>
      rw [List.map_cons, Groups.listedAt_cons, ih]
      by_cases hkey : c.representatives.getD node node = key
      · rw [if_pos hkey, List.filter_cons_of_pos (by simpa only [beq_iff_eq] using hkey)]
        rfl
      · rw [if_neg hkey, List.filter_cons_of_neg (by simpa only [beq_iff_eq] using hkey), List.nil_append]
  simp only [List.nil_append, hlisted]

/-- The order in which groups are listed: those of each chunk, however long chunks are, and in the end those of all
chunks together. -/
structure Lists (c : Components) (length : Nat) (listings : List (List (Nat × Array Nat)))
    (listed : List (Nat × Array Nat)) : Prop where
  /-- A chunk has nodes. -/
  length_pos : 0 < length
  /-- The groups of each chunk are listed once, in some order. -/
  chunks : List.Forall₂ (fun chunk listing => listing.Perm (c.groupChunk chunk).toList)
    (tiles c.representatives.size length) listings
  /-- So are the joined groups. -/
  joined : listed.Perm (Groups.join listings).toList

/-- All chunks together leave for every representative the nodes that are assigned to it. -/
theorem Lists.hold {length : Nat} {listings : List (List (Nat × Array Nat))} {listed : List (Nat × Array Nat)}
    (h : c.Lists length listings listed) : (Groups.join listings).Hold c.membersOf := by
  have hchunks : ∀ (chunks : List Partition) (listings : List (List (Nat × Array Nat))),
      List.Forall₂ (fun chunk listing => listing.Perm (c.groupChunk chunk).toList) chunks listings →
        ∀ (groups : Groups) (members : Nat → List Nat), groups.Hold members →
          (listings.foldl Groups.appendAll groups).Hold fun key =>
            members key ++ (chunks.flatMap Partition.nodes).filter fun node =>
              c.representatives.getD node node == key := by
    intro chunks listings hlistings
    induction hlistings with
    | nil => simp
    | @cons chunk listing _ _ hperm _ ih =>
      intro groups members hgroups
      have hchunk := c.hold_groupChunk chunk
      have hjoined := hgroups.appendAll listing
        fun entry hentry => hchunk.toList_ne_nil (hperm.mem_iff.mp hentry)
      simp only [hchunk.listedAt_eq hperm] at hjoined
      simpa only [List.foldl_cons, List.flatMap_cons, List.filter_append, List.append_assoc] using ih _ _ hjoined
  have hall := hchunks _ _ h.chunks ∅ (fun _ => []) Groups.hold_empty
  rw [flatMap_nodes_tiles h.length_pos] at hall
  simp only [List.nil_append] at hall
  exact hall

/-- One way to list groups, used for every table, is one of these orders. -/
theorem lists_join (hlisting : listing.Complete) (c : Components) {length : Nat} (hlength : 0 < length) :
    let listings := (tiles c.representatives.size length).map fun chunk => listing (c.groupChunk chunk)
    c.Lists length listings (listing (Groups.join listings)) where
  length_pos := hlength
  chunks := by
    rw [List.forall₂_map_right_iff, List.forall₂_same]
    exact fun chunk _ => hlisting _
  joined := hlisting _

theorem lists_group (hlisting : listing.Complete) (c : Components) :
    c.Lists chunkSize ((tiles c.representatives.size chunkSize).map fun chunk => listing (c.groupChunk chunk))
      (listing (c.group listing)) := by
  have hjoin : c.group listing = Groups.join
      ((tiles c.representatives.size chunkSize).map fun chunk => listing (c.groupChunk chunk)) := List.foldl_map.symm
  rw [hjoin]
  exact lists_join hlisting c (by decide)

/-- A group as a cluster that has no place in the order yet. -/
def clusterOf (g : Graph) (group : Nat × Array Nat) : Cluster where
  id := 0
  representative := group.1
  members := group.2.toList
  density := g.density group.2.toList
  centralByDegree := g.centralByDegree group.2.toList centralCount
  centralByBetweenness := none

/-- Clusters with their places as ids. -/
def numbered (clusters : List Cluster) : List Cluster :=
  clusters.zipIdx.map fun (cluster, id) => { cluster with id := id }

/-- What becomes of listed groups: those that are large enough are put in order and numbered. -/
def clustersFrom (g : Graph) (minSize : Nat) (listed : List (Nat × Array Nat)) : List Cluster :=
  numbered (((listed.filter fun group => decide (minSize ≤ group.2.size)).map (clusterOf g)).mergeSort clusterLe)

theorem clustersListed_eq (listing : Listing) (g : Graph) (c : Components) (minSize : Nat) :
    c.clustersListed listing g minSize = clustersFrom g minSize (listing (c.group listing)) := rfl

/-- The clusters are the groups that are large enough, each with its place in the order. -/
theorem mem_clustersFrom {listed : List (Nat × Array Nat)} {cluster : Cluster}
    (h : cluster ∈ clustersFrom g minSize listed) :
    ∃ group ∈ listed, minSize ≤ group.2.size ∧ cluster = { clusterOf g group with id := cluster.id } := by
  obtain ⟨⟨sorted, id⟩, hsorted, rfl⟩ := List.mem_map.mp h
  have hmem := (List.mergeSort_perm _ _).mem_iff.mp (List.fst_mem_of_mem_zipIdx hsorted)
  obtain ⟨group, hgroup, rfl⟩ := List.mem_map.mp hmem
  obtain ⟨hgroup, hsize⟩ := List.mem_filter.mp hgroup
  exact ⟨group, hgroup, of_decide_eq_true hsize, rfl⟩

section Listed

variable {length : Nat} {listings : List (List (Nat × Array Nat))} {listed : List (Nat × Array Nat)}

/-- A cluster has the members that are assigned to its representative, and it has some. -/
theorem Lists.members_of_mem (h : c.Lists length listings listed) {cluster : Cluster}
    (hcluster : cluster ∈ clustersFrom g minSize listed) :
    cluster.members = c.membersOf cluster.representative ∧ cluster.members ≠ [] ∧
      minSize ≤ cluster.size ∧ cluster.density = g.density cluster.members := by
  obtain ⟨⟨representative, members⟩, hgroup, hsize, heq⟩ := mem_clustersFrom hcluster
  rw [heq]
  have hgroup := h.joined.mem_iff.mp hgroup
  have hsome := h.hold.toList_ne_nil hgroup
  have hfound := Std.HashMap.mem_toList_iff_getElem?_eq_some.mp hgroup
  rw [h.hold representative] at hfound
  by_cases hnone : c.membersOf representative = []
  · rw [hnone] at hfound
    exact absurd hfound.symm (Option.some_ne_none _)
  · rw [Groups.ofMembers_of_ne_nil hnone, Option.some.injEq] at hfound
    subst hfound
    exact ⟨rfl, hsome, hsize, rfl⟩

/-- Every representative that enough nodes are assigned to has a cluster. -/
theorem Lists.exists_mem (h : c.Lists length listings listed) {representative : Nat}
    (hsome : c.membersOf representative ≠ []) (hsize : minSize ≤ (c.membersOf representative).length) :
    ∃ cluster ∈ clustersFrom g minSize listed, cluster.representative = representative ∧
      cluster.members = c.membersOf representative := by
  have hfound := h.hold representative
  rw [Groups.ofMembers_of_ne_nil hsome] at hfound
  have hlisted : (representative, (c.membersOf representative).toArray) ∈ listed :=
    h.joined.mem_iff.mpr (Std.HashMap.mem_toList_iff_getElem?_eq_some.mpr hfound)
  have hlarge : clusterOf g (representative, (c.membersOf representative).toArray) ∈
      (listed.filter fun group => decide (minSize ≤ group.2.size)).map (clusterOf g) :=
    List.mem_map_of_mem (List.mem_filter.mpr ⟨hlisted, by simpa using hsize⟩)
  obtain ⟨id, hid⟩ := List.mem_iff_getElem?.mp ((List.mergeSort_perm _ clusterLe).mem_iff.mpr hlarge)
  exact ⟨_, List.mem_map_of_mem (List.mk_mem_zipIdx_iff_getElem?.mpr hid), rfl, rfl⟩

end Listed

theorem members_of_mem_clustersListed (hlisting : listing.Complete) {cluster : Cluster}
    (h : cluster ∈ c.clustersListed listing g minSize) :
    cluster.members = c.membersOf cluster.representative ∧ cluster.members ≠ [] ∧
      minSize ≤ cluster.size ∧ cluster.density = g.density cluster.members := by
  rw [clustersListed_eq] at h
  exact (lists_group hlisting c).members_of_mem h

theorem exists_mem_clustersListed (hlisting : listing.Complete) {representative : Nat}
    (hsome : c.membersOf representative ≠ []) (hsize : minSize ≤ (c.membersOf representative).length) :
    ∃ cluster ∈ c.clustersListed listing g minSize, cluster.representative = representative ∧
      cluster.members = c.membersOf representative := by
  rw [clustersListed_eq]
  exact (lists_group hlisting c).exists_mem hsome hsize

end Components

end PackedGraph
