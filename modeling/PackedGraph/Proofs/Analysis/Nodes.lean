import Mathlib.Data.List.Basic
import PackedGraph.Proofs.Analysis.Clusters
import PackedGraph.Proofs.Analysis.Components
import PackedGraph.Proofs.Analysis.Similarity

/-!
# What is found is about nodes

Whenever a run is stopped, the pairs that it keeps are pairs of nodes, and the clusters that it makes name
nodes as their representatives, members and central nodes.

Main statements: `Similarity.node_lt_of_mem_pairs` and `Components.among_clusters`.
-/

namespace PackedGraph

variable {P : Nat → Prop} {g : Graph}

/-- What is in a list after a change at one place was in it before, or is what it was changed to. -/
theorem mem_of_mem_modify {α : Type} {xs : List α} {index : Nat} {change : α → α} {x : α}
    (h : x ∈ xs.modify index change) : x ∈ xs ∨ ∃ before ∈ xs, x = change before := by
  obtain ⟨place, hplace⟩ := List.mem_iff_getElem?.mp h
  rw [List.getElem?_modify] at hplace
  obtain ⟨before, hbefore, rfl⟩ := Option.map_eq_some_iff.mp hplace
  have hmem := List.mem_of_getElem? hbefore
  split
  · exact .inr ⟨before, hmem, rfl⟩
  · exact .inl hmem

/-! ## Selections -/

namespace Selection

/-- All entries are pairs of such nodes. -/
def Between (P : Nat → Prop) (s : Selection) : Prop := ∀ e ∈ s.keyed, P e.first ∧ P e.second

variable {s : Selection}

theorem Between.insert {entry : ScoredPair} {kept : List ScoredPair}
    (hentry : P entry.first ∧ P entry.second) (hkept : ∀ e ∈ kept, P e.first ∧ P e.second) :
    ∀ e ∈ Selection.insert entry kept, P e.first ∧ P e.second := by
  intro e he
  rcases List.mem_cons.mp ((insert_perm entry kept).mem_iff.mp he) with rfl | he
  · exact hentry
  · exact hkept e he

theorem Between.offer (h : s.Between P) {entry : ScoredPair} (hentry : P entry.first ∧ P entry.second) :
    (s.offer entry).2.Between P := by
  unfold Selection.offer
  split
  · exact h
  · dsimp only
    split
    · split
      · split
        · exact h
        · exact Between.insert hentry fun e he => h e (List.mem_of_mem_dropLast he)
      · exact Between.insert hentry (by simp)
    · exact Between.insert hentry h

theorem Between.offerAll (h : s.Between P) {offered : List ScoredPair}
    (hoffered : ∀ e ∈ offered, P e.first ∧ P e.second) : (s.offerAll offered).Between P := by
  induction offered generalizing s with
  | nil => exact h
  | cons entry offered ih =>
    exact ih (h.offer (hoffered entry List.mem_cons_self)) fun e he => hoffered e (List.mem_cons_of_mem _ he)

theorem Between.entries (h : s.Between P) : ∀ e ∈ s.entries, P e.first ∧ P e.second := by
  intro e he
  obtain ⟨key, hkey, rfl⟩ := List.mem_map.mp he
  exact h key hkey

theorem Between.merge (h : s.Between P) {other : Selection} (hother : other.Between P) :
    (s.merge other).Between P := h.offerAll hother.entries

end Selection

/-! ## Similar pairs -/

/-- The partners that a worker has kept are pairs of such nodes. -/
def Comparisons.Between (P : Nat → Prop) (own : Comparisons) : Prop :=
  ∀ partners ∈ own.neighbors, partners.kept.Between P

namespace Similarity

variable {settings : SimilaritySettings} {index : InverseIndex}

/-- A node that has a candidate is a node, and so is the candidate. -/
theorem lt_of_mem_candidates (hg : g.Built) (hindex : index.Sound g) {node candidate : Nat}
    (h : candidate ∈ candidates g index node) : node < g.nodeCount ∧ candidate < g.nodeCount := by
  obtain ⟨-, shared, hshared, hsource⟩ := ((mem_candidates g index node).2 candidate).mp h
  exact ⟨hg.source_lt hshared, hg.source_lt (hindex node shared hshared candidate hsource)⟩

theorem between_compare (hg : g.Built) (hindex : index.Sound g) (node : Nat) {own : Comparisons}
    (h : own.Between (· < g.nodeCount)) : (compare g settings index node own).Between (· < g.nodeCount) := by
  unfold compare
  split
  · exact h
  · intro partners hpartners
    dsimp only at hpartners
    split at hpartners
    · exact h partners hpartners
    · rcases List.mem_cons.mp hpartners with rfl | hpartners
      · refine Selection.Between.offerAll (by simp [Selection.Between, Selection.new]) fun e he => ?_
        obtain ⟨candidate, hcandidate, rfl⟩ := List.mem_map.mp (List.mem_filter.mp he).1
        exact lt_of_mem_candidates hg hindex (List.mem_filter.mp hcandidate).1
      · exact h partners hpartners

/-- Along a trace only pairs of nodes are kept. -/
theorem between_ofTrace (hg : g.Built) (hindex : index.Sound g) (workers : Nat) (trace : List Visit)
    (terminated : Bool) : ∀ partners ∈ (ofTrace g settings index workers trace terminated).neighbors,
      partners.kept.Between (· < g.nodeCount) := by
  have hown : ∀ own ∈ (trace.foldl (fun own v => own.modify v.worker (compare g settings index v.node))
      (Array.replicate workers ({} : Comparisons))).toList, own.Between (· < g.nodeCount) := by
    induction trace using List.reverseRecOn with
    | nil => simp [Comparisons.Between]
    | append_singleton trace v ih =>
      intro own hown
      rw [List.foldl_append, List.foldl_cons, List.foldl_nil, Array.toList_modify] at hown
      rcases mem_of_mem_modify hown with hown | ⟨before, hbefore, rfl⟩
      · exact ih own hown
      · exact between_compare hg hindex v.node (ih before hbefore)
  intro partners hpartners
  simp only [ofTrace] at hpartners
  rw [(List.mergeSort_perm _ _).mem_iff, List.mem_flatMap] at hpartners
  obtain ⟨own, hmem, hpartners⟩ := hpartners
  exact hown own hmem partners (List.mem_reverse.mp hpartners)

theorem lt_of_mem_pairs_ofTrace (hg : g.Built) (hindex : index.Sound g) (workers : Nat) (trace : List Visit)
    (terminated : Bool) : ∀ pair ∈ (ofTrace g settings index workers trace terminated).pairs,
      pair.first < g.nodeCount ∧ pair.second < g.nodeCount := by
  have hneighbors := @between_ofTrace g settings index hg hindex workers trace terminated
  have hoverall : ∀ selection ∈ (ofTrace g settings index workers trace terminated).overall,
      selection.Between (· < g.nodeCount) := by
    intro selection hselection
    obtain ⟨bound, -, rfl⟩ := Option.map_eq_some_iff.mp hselection
    refine List.foldlRecOn _ _ (by simp [Selection.Between, Selection.new]) ?_
    exact fun selection hselection partners hpartners => hselection.merge (hneighbors partners hpartners)
  unfold pairs
  split
  · next selection hselection => exact (hoverall selection hselection).entries
  · intro pair hpair
    obtain ⟨partners, hpartners, hpair⟩ := List.mem_flatMap.mp hpair
    exact (hneighbors partners hpartners).entries pair hpair

/-- Whenever a run is stopped, the pairs that it keeps are pairs of nodes. -/
theorem node_lt_of_mem_pairs (hg : g.Built) {stop : StopAfter} {r : Similarity}
    (h : compute g settings stop = .ok r) :
    ∀ pair ∈ r.pairs, pair.first < g.nodeCount ∧ pair.second < g.nodeCount := by
  obtain ⟨⟨⟩, -, h⟩ := ok_of_bind h
  obtain ⟨⟨⟩, -, h⟩ := ok_of_bind h
  obtain ⟨pool, -, h⟩ := ok_of_bind h
  obtain ⟨found, hfound, h⟩ := ok_of_bind h
  obtain ⟨index, processed, stopped, hbuild, hindex⟩ := InverseIndex.exists_build_sound hg pool stop
  obtain rfl := Except.ok.inj (hbuild.symm.trans hfound)
  obtain ⟨_, -, h⟩ := ok_of_bind h
  obtain ⟨_, -, h⟩ := ok_of_bind h
  obtain rfl := Except.ok.inj h
  exact lt_of_mem_pairs_ofTrace hg hindex _ _ _

end Similarity

/-! ## Clusters -/

/-- Everything that a cluster names is such a node. -/
structure Cluster.Among (P : Nat → Prop) (c : Cluster) : Prop where
  /-- The representative is. -/
  representative : P c.representative
  /-- So are the members. -/
  members : ∀ node ∈ c.members, P node
  /-- So are those with the most relationships. -/
  centralByDegree : ∀ node ∈ c.centralByDegree, P node
  /-- So are those with the highest betweenness. -/
  centralByBetweenness : ∀ central ∈ c.centralByBetweenness, ∀ node ∈ central, P node

theorem Cluster.Among.mono {Q : Nat → Prop} {c : Cluster} (hc : c.Among P) (h : ∀ n, P n → Q n) :
    c.Among Q where
  representative := h _ hc.representative
  members n hn := h n (hc.members n hn)
  centralByDegree n hn := h n (hc.centralByDegree n hn)
  centralByBetweenness central hcentral n hn := h n (hc.centralByBetweenness central hcentral n hn)

/-- The members with the highest betweenness are members. -/
theorem Betweenness.mem_of_central {b : Betweenness} {members central : List Nat} {top : Nat}
    (h : b.central? members top = some central) : ∀ node ∈ central, node ∈ members := by
  obtain ⟨scored, hscored, rfl⟩ := Option.map_eq_some_iff.mp h
  have hfst : scored.map Prod.fst = members := by
    clear h
    induction members generalizing scored with
    | nil =>
      obtain rfl := Option.some.inj hscored
      rfl
    | cons first members ih =>
      rw [List.mapM_cons] at hscored
      obtain ⟨entry, hentry, hscored⟩ := Option.bind_eq_some_iff.mp hscored
      obtain ⟨later, hlater, hscored⟩ := Option.bind_eq_some_iff.mp hscored
      obtain ⟨score, -, rfl⟩ := Option.map_eq_some_iff.mp hentry
      obtain rfl := Option.some.inj hscored
      rw [List.map_cons, ih later hlater]
  intro node hnode
  obtain ⟨entry, hentry, rfl⟩ := List.mem_map.mp hnode
  rw [← hfst]
  exact List.mem_map_of_mem ((List.mergeSort_perm _ _).mem_iff.mp (List.mem_of_mem_take hentry))

/-- Whatever is known about betweenness, the same nodes are named. -/
theorem Cluster.Among.describedWith {c : Cluster} (h : c.Among P) (betweenness : Option Betweenness) :
    (c.describedWith betweenness).Among P := by
  unfold Cluster.describedWith
  cases hdescribed : betweenness.bind c.withBetweenness? with
  | none => exact h
  | some described =>
    obtain ⟨b, -, hb⟩ := Option.bind_eq_some_iff.mp hdescribed
    obtain ⟨central, hcentral, rfl⟩ := Option.map_eq_some_iff.mp hb
    refine ⟨h.representative, h.members, h.centralByDegree, fun named hnamed node hnode => ?_⟩
    obtain rfl := Option.some.inj hnamed
    exact h.members node (Betweenness.mem_of_central hcentral node hnode)

namespace Graph

/-- Relationships inside a set join its members. -/
theorem mem_of_inside {members : List Nat} {pair : Nat × Nat} (h : pair ∈ g.inside members) :
    pair.1 ∈ members ∧ pair.2 ∈ members :=
  ⟨(mem_inside.mp h).1, (mem_inside.mp h).2.2.2⟩

/-- Only members have a degree inside a set. -/
theorem mem_of_insideDegrees (g : Graph) (members : List Nat) :
    ∀ node ∈ g.insideDegrees members, node ∈ members := by
  have hcount : ∀ {degrees : Std.HashMap Nat Nat} {last : Nat}, last ∈ members →
      (∀ node ∈ degrees, node ∈ members) → ∀ node ∈ countEnd degrees last, node ∈ members := by
    intro degrees last hlast hdegrees node hnode
    rw [countEnd, Std.HashMap.mem_alter] at hnode
    split at hnode
    · next heq => exact eq_of_beq heq ▸ hlast
    · exact hdegrees node hnode
  have hzero : ∀ node ∈
      members.foldl (fun degrees node => degrees.insert node 0) (∅ : Std.HashMap Nat Nat),
      node ∈ members := by
    refine List.foldlRecOn (motive := fun degrees => ∀ node ∈ degrees, node ∈ members) _ _ (by simp) ?_
    intro degrees hdegrees member hmember node hnode
    rcases Std.HashMap.mem_insert.mp hnode with heq | hnode
    · exact eq_of_beq heq ▸ hmember
    · exact hdegrees node hnode
  refine List.foldlRecOn (motive := fun degrees => ∀ node ∈ degrees, node ∈ members) _ _ hzero ?_
  intro degrees hdegrees pair hpair
  exact hcount (mem_of_inside hpair).1 (hcount (mem_of_inside hpair).2 hdegrees)

/-- The members with the most relationships are members. -/
theorem mem_of_centralByDegree {members : List Nat} {top node : Nat}
    (h : node ∈ g.centralByDegree members top) : node ∈ members := by
  obtain ⟨entry, hentry, rfl⟩ := List.mem_map.mp h
  have hlisted := (List.mergeSort_perm _ _).mem_iff.mp (List.mem_of_mem_take hentry)
  refine mem_of_insideDegrees g members _ ?_
  rw [← Std.HashMap.mem_keys, ← Std.HashMap.map_fst_toList_eq_keys]
  exact List.mem_map_of_mem hlisted

end Graph

/-! ## Groups -/

namespace Groups

/-- Everything that groups name is such a node. -/
def Among (P : Nat → Prop) (groups : Groups) : Prop :=
  ∀ group ∈ groups.toList, P group.1 ∧ ∀ node ∈ group.2, P node

theorem among_empty : Among P ∅ := by simp [Among]

theorem Among.append {groups : Groups} (h : groups.Among P) {representative : Nat} {members : Array Nat}
    (hrepresentative : P representative) (hmembers : ∀ node ∈ members, P node) :
    (groups.append representative members).Among P := by
  rintro ⟨key, found⟩ hgroup
  rw [Std.HashMap.mem_toList_iff_getElem?_eq_some, Groups.append, Std.HashMap.getElem?_alter] at hgroup
  split at hgroup
  · next heq =>
    obtain rfl := eq_of_beq heq
    obtain rfl := Option.some.inj hgroup
    refine ⟨hrepresentative, fun node hnode => ?_⟩
    rcases Array.mem_append.mp hnode with hnode | hnode
    · cases hbefore : groups[representative]? with
      | none => simp [hbefore] at hnode
      | some before =>
        rw [hbefore] at hnode
        have hgroup := Std.HashMap.mem_toList_iff_getElem?_eq_some.mpr hbefore
        exact (h ⟨representative, before⟩ hgroup).2 node hnode
    · exact hmembers node hnode
  · exact h ⟨key, found⟩ (Std.HashMap.mem_toList_iff_getElem?_eq_some.mpr hgroup)

end Groups

namespace Components

/-- The representative of a node is a node. -/
theorem representative_lt {settings : ComponentSettings} {stop : StopAfter} {c : Components}
    (h : compute g settings stop = .ok c) : c.representatives.size = g.nodeCount ∧
      ∀ node < g.nodeCount, c.representatives.getD node node < g.nodeCount := by
  obtain ⟨⟨⟩, -, h⟩ := ok_of_bind h
  obtain ⟨pool, -, h⟩ := ok_of_bind h
  obtain rfl := Except.ok.inj h
  have hsize : ∀ trace, (setsOfTrace g trace).size = g.nodeCount := fun trace => by
    rw [setsOfTrace_eq, DisjointSets.size_unionAll, DisjointSets.size_new]
  simp only [DisjointSets.roots_eq, hsize]
  refine ⟨by simp, fun node hnode => ?_⟩
  simpa [hnode] using Nat.lt_of_le_of_lt (DisjointSets.root_le _ node) hnode

theorem among_group {c : Components} (h : ∀ node < c.representatives.size,
    c.representatives.getD node node < c.representatives.size) :
    (c.group Std.HashMap.toList).Among (· < c.representatives.size) := by
  unfold group
  refine List.foldlRecOn _ _ Groups.among_empty fun groups hgroups chunk hchunk => ?_
  have hbelow : ∀ node ∈ chunk.nodes, node < c.representatives.size := fun node hnode => by
    rw [← List.mem_range, ← flatMap_nodes_tiles (show 0 < chunkSize by decide)]
    exact List.mem_flatMap.mpr ⟨chunk, hchunk, hnode⟩
  have hgrouped : (c.groupChunk chunk).Among (· < c.representatives.size) := by
    unfold groupChunk
    refine List.foldlRecOn _ _ Groups.among_empty fun groups hgroups node hnode => ?_
    exact hgroups.append (h node (hbelow node hnode)) (by simpa using hbelow node hnode)
  refine List.foldlRecOn _ _ hgroups fun groups hgroups group hgroup => ?_
  exact hgroups.append (hgrouped group hgroup).1 (hgrouped group hgroup).2

/-- Whenever a run is stopped, the clusters that it makes name nodes. -/
theorem among_clusters {settings : ComponentSettings} {stop : StopAfter} {c : Components}
    (h : compute g settings stop = .ok c) (minSize : Nat) :
    ∀ cluster ∈ c.clusters g minSize, cluster.Among (· < g.nodeCount) := by
  obtain ⟨hsize, hbelow⟩ := representative_lt h
  have hgroups := among_group (c := c) (by rwa [hsize])
  rw [hsize] at hgroups
  intro cluster hcluster
  obtain ⟨⟨listed, id⟩, hlisted, rfl⟩ := List.mem_map.mp hcluster
  have hmem := (List.mergeSort_perm _ _).mem_iff.mp (List.fst_mem_of_mem_zipIdx hlisted)
  obtain ⟨⟨representative, members⟩, hgroup, rfl⟩ := List.mem_map.mp hmem
  obtain ⟨hrepresentative, hmembers⟩ := hgroups _ (List.mem_filter.mp hgroup).1
  refine ⟨hrepresentative, fun node hnode => hmembers node (by simpa using hnode),
    fun node hnode => ?_, by simp⟩
  exact hmembers node (by simpa using Graph.mem_of_centralByDegree hnode)

end Components

end PackedGraph
