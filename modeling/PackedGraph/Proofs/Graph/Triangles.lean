import Mathlib.Combinatorics.Enumerative.DoubleCounting
import Mathlib.Data.Finset.Powerset
import Mathlib.Data.Nat.Choose.Basic
import Mathlib.Tactic.Tauto
import PackedGraph.Graph.Triangles
import PackedGraph.Proofs.Graph.Built
import PackedGraph.Proofs.Topology.Meet

/-!
# Every triangle is found once

For a node, `Graph.trianglesFrom` lists the triangles of which it is the smallest corner: two larger
neighbours that are neighbours of each other, all three of small enough degree.  A triangle finder goes
through the larger neighbours in rounds, and through the common neighbours of two corners as two cursors
meet.  It yields this list, wherever its cursors stood before, and is ready for the next node.  Over all
nodes every set of three pairwise adjacent nodes is listed once.

Main statements: `TriangleFinder.Ready.trianglesOf_eq`, `Graph.mem_trianglesFrom`,
`Graph.pairwise_trianglesFrom` and `Graph.toFinset_map_corners`.
-/

namespace PackedGraph

variable {g : Graph} {maxDegree : Nat}

namespace Graph

/-- The triangles whose two smaller corners are given. -/
def trianglesOn (g : Graph) (maxDegree a b : Nat) : List Triangle :=
  ((((g.targets a).filter fun c => decide (b < c)).bagInter
    ((g.targets b).filter fun c => decide (b < c))).filter fun c =>
      decide (g.degree c ≤ maxDegree)).map fun c => ⟨a, b, c⟩

/-- The triangles of which a node is the smallest corner. -/
def trianglesFrom (g : Graph) (maxDegree a : Nat) : List Triangle :=
  if g.degree a ≤ maxDegree then
    ((g.targets a).filter fun b => decide (a < b)).flatMap fun b =>
      if g.degree b ≤ maxDegree then g.trianglesOn maxDegree a b else []
  else []

/-- The sets of three distinct, pairwise adjacent nodes whose degrees do not exceed a bound. -/
def triangleSets (g : Graph) (maxDegree : Nat) : Finset (Finset Nat) :=
  ((Finset.range g.nodeCount).powersetCard 3).filter fun corners =>
    (∀ a ∈ corners, ∀ b ∈ corners, a ≠ b → b ∈ g.targets a) ∧ ∀ a ∈ corners, g.degree a ≤ maxDegree

end Graph

/-! ## The finder -/

namespace TriangleFinder

/-- A finder that is ready for any node: its cursors read the types of the graph. -/
structure Ready (f : TriangleFinder) (g : Graph) (maxDegree : Nat) : Prop where
  /-- The graph is the given one. -/
  graph_eq : f.graph = g
  /-- So is the bound. -/
  maxDegree_eq : f.maxDegree = maxDegree
  /-- The outer cursor reads the graph. -/
  outer : f.outer.sources = g.rawCursor.sources
  /-- The first inner cursor reads the graph. -/
  first : f.first.sources = g.rawCursor.sources
  /-- The second inner cursor reads the graph. -/
  second : f.second.sources = g.rawCursor.sources

variable {f : TriangleFinder}

theorem Ready.admits_eq (h : f.Ready g maxDegree) (node : Nat) :
    f.admits node = decide (g.degree node ≤ maxDegree) := by
  rw [admits, h.graph_eq, h.maxDegree_eq]

/-- The neighbours of two corners behind the second of them, side by side. -/
def meeting (f : TriangleFinder) (a b : Nat) : Meeting :=
  let first := (f.first.rebind a).skipUntil b
  let second := (f.second.rebind b).skipUntil b
  ⟨first.1, second.1, first.2, second.2, #[]⟩

/-- Third corners are looked for among the neighbours behind the second, on both sides. -/
theorem Ready.stands_meeting (hg : g.Built) (h : f.Ready g maxDegree) (a b : Nat) :
    (f.meeting a b).Stands ((g.targets a).filter fun c => decide (b < c))
        ((g.targets b).filter fun c => decide (b < c)) ∧
      (f.meeting a b).left.sources = g.rawCursor.sources ∧ (f.meeting a b).right.sources = g.rawCursor.sources := by
  obtain ⟨hc, hleft, hleftSources⟩ := Cursor.skipUntil_of_shows (hg.shows_rebind h.first a) b
  obtain ⟨hd, hright, hrightSources⟩ := Cursor.skipUntil_of_shows (hg.shows_rebind h.second b) b
  rw [Cursor.sources_rebind, h.first] at hleftSources
  rw [Cursor.sources_rebind, h.second] at hrightSources
  exact ⟨⟨hc, hd, hleft, hright, (hg.ascending a).sublist List.filter_sublist,
    (hg.ascending b).sublist List.filter_sublist⟩, hleftSources, hrightSources⟩

/-- Where the neighbours of two corners have met, the admitted ones among them are the third corners. -/
theorem close_eq_iterate (f : TriangleFinder) (a b : Nat) :
    let met := Meeting.turn^[(f.meeting a b).left.remaining + (f.meeting a b).right.remaining + 2] (f.meeting a b)
    f.close a b = ((met.found.toList.filter f.admits).map fun c => ⟨a, b, c⟩,
      { f with first := met.left, second := met.right }) :=
  congrArg (fun met : Array Nat × Cursor × Cursor => ((met.1.toList.filter f.admits).map fun c => Triangle.mk a b c,
    { f with first := met.2.1, second := met.2.2 })) (Meeting.meet_eq_iterate _ (f.meeting a b))

/-- The third corners for two given ones are the common neighbours behind the second. -/
theorem Ready.close_eq (hg : g.Built) (h : f.Ready g maxDegree) (a b : Nat) :
    (f.close a b).1 = g.trianglesOn maxDegree a b ∧ (f.close a b).2.Ready g maxDegree ∧
      (f.close a b).2.outer = f.outer := by
  obtain ⟨hstands, hleft, hright⟩ := h.stands_meeting hg a b
  obtain ⟨-, hfound, hfirst, hsecond⟩ := hstands.iterate_turn hstands.length_le
  have hadmits : f.admits = fun c => decide (g.degree c ≤ maxDegree) := funext h.admits_eq
  rw [close_eq_iterate]
  refine ⟨?_, ⟨h.graph_eq, h.maxDegree_eq, h.outer, hfirst.trans hleft, hsecond.trans hright⟩, rfl⟩
  simp only [hfound, hadmits]
  rfl

/-- The loop over the larger neighbours of a node. -/
structure Round where
  /-- The neighbour that comes next. -/
  next : Option Nat
  /-- The finder. -/
  finder : TriangleFinder
  /-- The triangles so far. -/
  found : Array Triangle

namespace Round

/-- In front of the first larger neighbour. -/
def start (f : TriangleFinder) (a : Nat) : Round :=
  let outer := (f.outer.rebind a).skipUntil a
  ⟨outer.1, { f with outer := outer.2 }, #[]⟩

/-- A neighbour that is admitted closes its triangles; once there is none, nothing happens. -/
def turn (a : Nat) (r : Round) : Round :=
  match r.next with
  | none => r
  | some b =>
    let closed := if r.finder.admits b then r.finder.close a b else ([], r.finder)
    ⟨closed.2.outer.next.1, { closed.2 with outer := closed.2.outer.next.2 }, r.found ++ closed.1⟩

/-- Counting the steps changes nothing in the turns that are taken. -/
theorem closeAll_eq_iterate (a steps : Nat) (r : Round) :
    closeAll a steps r.next r.finder r.found = (((turn a)^[steps] r).found, ((turn a)^[steps] r).finder) := by
  induction steps generalizing r with
  | zero => rfl
  | succ steps ih =>
    rw [Function.iterate_succ_apply, ← ih]
    obtain ⟨next, f, found⟩ := r
    cases next with
    | none => cases steps <;> rfl
    | some b => rfl

/-- The neighbours that are left are those the outer cursor shows behind the next one. -/
structure Stands (r : Round) (g : Graph) (maxDegree : Nat) (rest : List Nat) : Prop where
  /-- The first of them is next. -/
  next_eq : r.next = rest.head?
  /-- The finder is ready. -/
  ready : r.finder.Ready g maxDegree
  /-- Its outer cursor shows the others. -/
  shows : r.finder.outer.Shows rest.tail

variable {r : Round}

/-- A turn takes one neighbour and finds the triangles that it closes. -/
theorem Stands.turn (hg : g.Built) {b : Nat} {rest : List Nat} (h : r.Stands g maxDegree (b :: rest)) (a : Nat) :
    (r.turn a).Stands g maxDegree rest ∧ (r.turn a).found.toList =
      r.found.toList ++ if g.degree b ≤ maxDegree then g.trianglesOn maxDegree a b else [] := by
  obtain ⟨hnext, hready, hshows⟩ := h
  rw [List.head?_cons] at hnext
  rw [List.tail_cons] at hshows
  -- Whether `b` closes triangles or not, the outer cursor goes on from where it was.
  obtain ⟨closed, hclosed, htriangles, hclosedReady, houter⟩ : ∃ closed : List Triangle × TriangleFinder,
      (if r.finder.admits b then r.finder.close a b else ([], r.finder)) = closed ∧
      closed.1 = (if g.degree b ≤ maxDegree then g.trianglesOn maxDegree a b else []) ∧
      closed.2.Ready g maxDegree ∧ closed.2.outer = r.finder.outer := by
    refine ⟨_, rfl, ?_⟩
    rw [hready.admits_eq]
    by_cases hb : g.degree b ≤ maxDegree
    · simp only [hb, decide_true, if_true]
      exact hready.close_eq hg a b
    · rw [decide_eq_false hb, if_neg hb]
      exact ⟨rfl, hready, rfl⟩
  obtain ⟨hafter, hleft⟩ := Cursor.next_of_shows hshows
  rw [← houter] at hafter hleft
  simp only [Round.turn, hnext, hclosed]
  refine ⟨⟨hafter, ⟨hclosedReady.graph_eq, hclosedReady.maxDegree_eq,
    (Cursor.sources_next _).trans hclosedReady.outer, hclosedReady.first, hclosedReady.second⟩, hleft⟩, ?_⟩
  rw [Array.toList_appendList, htriangles]

/-- So many turns take so many neighbours; once there are none the loop has ended. -/
theorem Stands.iterate_turn (hg : g.Built) {rest : List Nat} (h : r.Stands g maxDegree rest) (a turns : Nat) :
    ((Round.turn a)^[turns] r).Stands g maxDegree (rest.drop turns) ∧
      ((Round.turn a)^[turns] r).found.toList = r.found.toList ++ (rest.take turns).flatMap fun b =>
        if g.degree b ≤ maxDegree then g.trianglesOn maxDegree a b else [] := by
  induction turns generalizing r rest with
  | zero => exact ⟨h, by simp⟩
  | succ turns ih =>
    rw [Function.iterate_succ_apply]
    cases rest with
    | nil =>
      have hkeep : r.turn a = r := by rw [Round.turn, h.next_eq]; rfl
      rw [hkeep]
      simpa using ih h
    | cons b rest =>
      obtain ⟨hstands, hfound⟩ := h.turn hg a
      obtain ⟨hend, hall⟩ := ih hstands
      refine ⟨hend, ?_⟩
      rw [hall, hfound, List.take_succ_cons, List.flatMap_cons, List.append_assoc]

end Round

/-- A finder that is ready begins in front of the larger neighbours of a node. -/
theorem Ready.stands_start (hg : g.Built) (h : f.Ready g maxDegree) (a : Nat) :
    (Round.start f a).Stands g maxDegree ((g.targets a).filter fun b => decide (a < b)) := by
  obtain ⟨hb, hshows, hsources⟩ := Cursor.skipUntil_of_shows (hg.shows_rebind h.outer a) a
  rw [Cursor.sources_rebind, h.outer] at hsources
  exact ⟨hb, ⟨h.graph_eq, h.maxDegree_eq, hsources, h.first, h.second⟩, hshows⟩

/-- A finder yields the triangles of which a node is the smallest corner, and is ready for the next
node. -/
theorem Ready.trianglesOf_eq (hg : g.Built) (h : f.Ready g maxDegree) (a : Nat) :
    (f.trianglesOf a).1 = g.trianglesFrom maxDegree a ∧ (f.trianglesOf a).2.Ready g maxDegree := by
  rw [trianglesOf, h.admits_eq, Graph.trianglesFrom]
  by_cases ha : g.degree a ≤ maxDegree
  · have hstands := h.stands_start hg a
    obtain ⟨hend, hfound⟩ := hstands.iterate_turn hg a ((Round.start f a).finder.outer.remaining + 1)
    have hlength : ((g.targets a).filter fun b => decide (a < b)).length ≤
        (Round.start f a).finder.outer.remaining + 1 := by
      rw [Cursor.remaining_of_shows hstands.shows, List.length_tail]
      omega
    rw [List.take_of_length_le hlength] at hfound
    simp only [ha, decide_true, Bool.not_true, Bool.false_eq_true, if_false, if_true]
    have hrun := Round.closeAll_eq_iterate a ((Round.start f a).finder.outer.remaining + 1) (Round.start f a)
    exact ⟨(congrArg (fun run => run.1.toList) hrun).trans hfound, (congrArg Prod.snd hrun) ▸ hend.ready⟩
  · rw [decide_eq_false ha, if_neg ha]
    exact ⟨rfl, h⟩

end TriangleFinder

/-! ## The sets of corners -/

/-- Three distinct numbers in ascending order. -/
theorem exists_ascending_of_card_eq_three {s : Finset Nat} (h : s.card = 3) :
    ∃ a b c, a < b ∧ b < c ∧ s = {a, b, c} := by
  obtain ⟨x, y, z, hxy, hxz, hyz, rfl⟩ := Finset.card_eq_three.mp h
  rcases Nat.lt_or_gt_of_ne hxy with hxy | hxy <;> rcases Nat.lt_or_gt_of_ne hxz with hxz | hxz <;>
    rcases Nat.lt_or_gt_of_ne hyz with hyz | hyz
  · exact ⟨x, y, z, hxy, hyz, rfl⟩
  · exact ⟨x, z, y, hxz, hyz, by ext; simp; tauto⟩
  · omega
  · exact ⟨z, x, y, hxz, hxy, by ext; simp; tauto⟩
  · exact ⟨y, x, z, hxy, hxz, by ext; simp; tauto⟩
  · omega
  · exact ⟨y, z, x, hyz, hxz, by ext; simp; tauto⟩
  · exact ⟨z, y, x, hyz, hxy, by ext; simp; tauto⟩

/-- The order of triangles by their corners. -/
def Triangle.Before (t u : Triangle) : Prop := t.a < u.a ∨ t.a = u.a ∧ (t.b < u.b ∨ t.b = u.b ∧ t.c < u.c)

theorem Triangle.Before.ne {t u : Triangle} (h : t.Before u) : t ≠ u := by
  rintro rfl
  rw [Before] at h
  omega

/-- The corners of a triangle. -/
def Triangle.corners (t : Triangle) : Finset Nat := {t.a, t.b, t.c}

namespace Graph

/-- What is listed are ascending triples of adjacent nodes that are admitted. -/
theorem mem_trianglesFrom {a : Nat} {t : Triangle} :
    t ∈ g.trianglesFrom maxDegree a ↔ t.a = a ∧ (t.a < t.b ∧ t.b < t.c) ∧
      (t.b ∈ g.targets t.a ∧ t.c ∈ g.targets t.a ∧ t.c ∈ g.targets t.b) ∧
      g.degree t.a ≤ maxDegree ∧ g.degree t.b ≤ maxDegree ∧ g.degree t.c ≤ maxDegree := by
  obtain ⟨x, y, z⟩ := t
  rw [trianglesFrom]
  by_cases ha : g.degree a ≤ maxDegree
  · rw [if_pos ha, List.mem_flatMap]
    constructor
    · rintro ⟨b, hb, hmem⟩
      rw [List.mem_filter, decide_eq_true_eq] at hb
      by_cases hdegree : g.degree b ≤ maxDegree
      · rw [if_pos hdegree, trianglesOn, List.mem_map] at hmem
        obtain ⟨c, hc, heq⟩ := hmem
        obtain ⟨rfl, rfl, rfl⟩ := Triangle.mk.inj heq
        simp only [List.mem_filter, List.mem_bagInter, decide_eq_true_eq] at hc
        exact ⟨rfl, ⟨hb.2, hc.1.1.2⟩, ⟨hb.1, hc.1.1.1, hc.1.2.1⟩, ha, hdegree, hc.2⟩
      · rw [if_neg hdegree] at hmem
        exact absurd hmem List.not_mem_nil
    · rintro ⟨rfl, ⟨hxy, hyz⟩, ⟨hy, hz, hyz'⟩, -, hdegree, hlast⟩
      refine ⟨y, List.mem_filter.mpr ⟨hy, decide_eq_true hxy⟩, ?_⟩
      rw [if_pos hdegree, trianglesOn, List.mem_map]
      refine ⟨z, ?_, rfl⟩
      simp only [List.mem_filter, List.mem_bagInter, decide_eq_true_eq]
      exact ⟨⟨⟨hz, hyz⟩, hyz', hyz⟩, hlast⟩
  · rw [if_neg ha]
    constructor
    · exact fun hmem => absurd hmem List.not_mem_nil
    · rintro ⟨rfl, -, -, hdegree, -⟩
      exact absurd hdegree ha

/-- Triangles are listed in the order of their corners: first by the smallest, then by the one in the middle. -/
theorem pairwise_trianglesFrom (hg : g.Built) (hparallel : g.parallel = false) (a : Nat) :
    (g.trianglesFrom maxDegree a).Pairwise Triangle.Before := by
  have hstrict : ∀ b, ((g.targets a).filter fun c => decide (b < c)).Pairwise (· < ·) := fun b =>
    (hg.strict hparallel a).filter _
  have hon : ∀ b, (g.trianglesOn maxDegree a b).Pairwise Triangle.Before := by
    intro b
    have hshared : (((g.targets a).filter fun c => decide (b < c)).bagInter
        ((g.targets b).filter fun c => decide (b < c))).Pairwise (· < ·) :=
      (hstrict b).sublist List.bagInter_sublist_left
    have hcorners := hshared.filter fun c => decide (g.degree c ≤ maxDegree)
    exact hcorners.map _ fun c d hlt => .inr ⟨rfl, .inr ⟨rfl, hlt⟩⟩
  have hcorners : ∀ b, ∀ t ∈ (if g.degree b ≤ maxDegree then g.trianglesOn maxDegree a b else []),
      t.a = a ∧ t.b = b := by
    intro b t ht
    split at ht
    · obtain ⟨c, -, rfl⟩ := List.mem_map.mp ht
      exact ⟨rfl, rfl⟩
    · exact absurd ht List.not_mem_nil
  rw [trianglesFrom]
  split
  · refine List.pairwise_flatMap.mpr ⟨fun b _ => ?_, (hstrict a).imp fun {b d} hlt t ht u hu => ?_⟩
    · split
      · exact hon b
      · exact List.Pairwise.nil
    · obtain ⟨hta, htb⟩ := hcorners b t ht
      obtain ⟨hua, hub⟩ := hcorners d u hu
      exact .inr ⟨hta.trans hua.symm, .inl (by rwa [htb, hub])⟩
  · exact List.Pairwise.nil

/-- Nothing is listed twice. -/
theorem nodup_trianglesFrom (hg : g.Built) (hparallel : g.parallel = false) (a : Nat) :
    (g.trianglesFrom maxDegree a).Nodup :=
  (pairwise_trianglesFrom hg hparallel a).imp Triangle.Before.ne

/-- All triangles of a graph, by their smallest corners. -/
def allTriangles (g : Graph) (maxDegree : Nat) : List Triangle :=
  g.nodeList.flatMap (g.trianglesFrom maxDegree)

theorem mem_allTriangles (hg : g.Built) {t : Triangle} :
    t ∈ g.allTriangles maxDegree ↔ (t.a < t.b ∧ t.b < t.c) ∧
      (t.b ∈ g.targets t.a ∧ t.c ∈ g.targets t.a ∧ t.c ∈ g.targets t.b) ∧
      g.degree t.a ≤ maxDegree ∧ g.degree t.b ≤ maxDegree ∧ g.degree t.c ≤ maxDegree := by
  rw [allTriangles, List.mem_flatMap]
  constructor
  · rintro ⟨a, -, hmem⟩
    exact (mem_trianglesFrom.mp hmem).2
  · intro h
    exact ⟨t.a, List.mem_range.mpr (hg.source_lt h.2.1.1), mem_trianglesFrom.mpr ⟨rfl, h⟩⟩

/-- A triangle is determined by its set of corners. -/
theorem nodup_map_corners (hg : g.Built) (hparallel : g.parallel = false) :
    ((g.allTriangles maxDegree).map Triangle.corners).Nodup := by
  have hnodup : (g.allTriangles maxDegree).Nodup := by
    refine List.nodup_flatMap.mpr ⟨fun a _ => nodup_trianglesFrom hg hparallel a, ?_⟩
    refine List.nodup_range.imp fun {a b} hne => ?_
    rw [Function.onFun, List.disjoint_left]
    intro t ha hb
    exact hne ((mem_trianglesFrom.mp ha).1.symm.trans (mem_trianglesFrom.mp hb).1)
  refine (List.nodup_map_iff_inj_on hnodup).mpr ?_
  intro t ht u hu heq
  obtain ⟨⟨htab, htbc⟩, -⟩ := (mem_allTriangles hg).mp ht
  obtain ⟨⟨huab, hubc⟩, -⟩ := (mem_allTriangles hg).mp hu
  obtain ⟨ta, tb, tc⟩ := t
  obtain ⟨ua, ub, uc⟩ := u
  simp only [Triangle.corners, Finset.ext_iff, Finset.mem_insert, Finset.mem_singleton] at *
  have hta := (heq ta).mp (by simp)
  have htb := (heq tb).mp (by simp)
  have htc := (heq tc).mp (by simp)
  have hua := (heq ua).mpr (by simp)
  have hub := (heq ub).mpr (by simp)
  have huc := (heq uc).mpr (by simp)
  rw [Triangle.mk.injEq]
  omega

/-- The sets of corners are the sets of three pairwise adjacent nodes that are admitted. -/
theorem toFinset_map_corners (hg : g.Built) (hundirected : g.isUndirected = true) :
    ((g.allTriangles maxDegree).map Triangle.corners).toFinset = g.triangleSets maxDegree := by
  ext corners
  rw [List.mem_toFinset, List.mem_map, triangleSets, Finset.mem_filter, Finset.mem_powersetCard]
  constructor
  · rintro ⟨⟨a, b, c⟩, ht, rfl⟩
    obtain ⟨⟨hab, hbc⟩, ⟨hb, hc, hbc'⟩, hdegrees⟩ := (mem_allTriangles hg).mp ht
    have hcomm : ∀ {u v : Nat}, v ∈ g.targets u → u ∈ g.targets v := (hg.mem_comm hundirected).mp
    simp only at hab hbc hb hc hbc' hdegrees
    refine ⟨⟨?_, ?_⟩, ?_, ?_⟩
    · intro v hv
      rw [Finset.mem_range]
      simp only [Triangle.corners, Finset.mem_insert, Finset.mem_singleton] at hv
      rcases hv with rfl | rfl | rfl
      · exact hg.source_lt hb
      · exact hg.target_lt hb
      · exact hg.target_lt hc
    · exact Finset.card_eq_three.mpr ⟨a, b, c, Nat.ne_of_lt hab, Nat.ne_of_lt (hab.trans hbc),
        Nat.ne_of_lt hbc, rfl⟩
    · simp only [Triangle.corners, Finset.mem_insert, Finset.mem_singleton]
      rintro u (rfl | rfl | rfl) v (rfl | rfl | rfl) hne
      all_goals first
        | exact absurd rfl hne
        | assumption
        | exact hcomm ‹_›
    · simp only [Triangle.corners, Finset.mem_insert, Finset.mem_singleton]
      rintro u (rfl | rfl | rfl)
      · exact hdegrees.1
      · exact hdegrees.2.1
      · exact hdegrees.2.2
  · rintro ⟨⟨-, hcard⟩, hadjacent, hdegrees⟩
    obtain ⟨a, b, c, hab, hbc, rfl⟩ := exists_ascending_of_card_eq_three hcard
    refine ⟨⟨a, b, c⟩, (mem_allTriangles hg).mpr ⟨⟨hab, hbc⟩, ⟨?_, ?_, ?_⟩, ?_, ?_, ?_⟩, rfl⟩
    · exact hadjacent a (by simp) b (by simp) (Nat.ne_of_lt hab)
    · exact hadjacent a (by simp) c (by simp) (Nat.ne_of_lt (hab.trans hbc))
    · exact hadjacent b (by simp) c (by simp) (Nat.ne_of_lt hbc)
    · exact hdegrees a (by simp)
    · exact hdegrees b (by simp)
    · exact hdegrees c (by simp)

/-! ## Counting -/

/-- Counting listed triangles by their corners is counting sets of corners. -/
theorem countP_allTriangles (hg : g.Built) (hundirected : g.isUndirected = true)
    (hparallel : g.parallel = false) (p : Finset Nat → Prop) [DecidablePred p] :
    (g.allTriangles maxDegree).countP (fun t => decide (p t.corners)) =
      ((g.triangleSets maxDegree).filter p).card := by
  have hnodup := @nodup_map_corners g maxDegree hg hparallel
  have hfilter : ((g.allTriangles maxDegree).map Triangle.corners).toFinset.filter p =
      (((g.allTriangles maxDegree).map Triangle.corners).filter fun corners =>
        decide (p corners)).toFinset := by
    ext corners
    simp
  rw [← toFinset_map_corners hg hundirected, hfilter, List.toFinset_card_of_nodup (hnodup.filter _),
    ← List.countP_eq_length_filter, List.countP_map]
  rfl

/-- Every triangle has three corners. -/
theorem sum_card_triangleSets (g : Graph) (maxDegree : Nat) :
    ∑ v ∈ Finset.range g.nodeCount, ((g.triangleSets maxDegree).filter (v ∈ ·)).card =
      3 * (g.triangleSets maxDegree).card := by
  have hcorners : ∀ corners ∈ g.triangleSets maxDegree,
      ((Finset.range g.nodeCount).filter (· ∈ corners)).card = 3 := by
    intro corners hcorners
    obtain ⟨hsubset, hcard⟩ := Finset.mem_powersetCard.mp (Finset.mem_filter.mp hcorners).1
    rw [Finset.filter_mem_eq_inter, Finset.inter_eq_right.mpr hsubset, hcard]
  calc _ = ∑ corners ∈ g.triangleSets maxDegree, ((Finset.range g.nodeCount).filter (· ∈ corners)).card :=
        Finset.sum_card_bipartiteAbove_eq_sum_card_bipartiteBelow fun v corners => v ∈ corners
    _ = 3 * (g.triangleSets maxDegree).card := by
        rw [Finset.sum_const_nat hcorners, Nat.mul_comm]

/-- The triangles of a node are pairs of its neighbours, of which there are so many. -/
theorem two_mul_card_le (hg : g.Built) (hparallel : g.parallel = false) (v : Nat) :
    2 * ((g.triangleSets maxDegree).filter (v ∈ ·)).card ≤ g.degree v * (g.degree v - 1) := by
  have hnodup : (g.targets v).Nodup := (hg.strict hparallel v).imp Nat.ne_of_lt
  have hpairs : ((g.triangleSets maxDegree).filter (v ∈ ·)).card ≤
      ((g.targets v).toFinset.powersetCard 2).card := by
    refine Finset.card_le_card_of_injOn (fun corners => corners.erase v) ?_ ?_
    · intro corners hcorners
      obtain ⟨hmem, hv⟩ := Finset.mem_filter.mp hcorners
      obtain ⟨hset, hadjacent, -⟩ := Finset.mem_filter.mp hmem
      rw [Finset.mem_coe, Finset.mem_powersetCard, Finset.card_erase_of_mem hv,
        (Finset.mem_powersetCard.mp hset).2]
      refine ⟨fun u hu => ?_, rfl⟩
      obtain ⟨hne, hu⟩ := Finset.mem_erase.mp hu
      exact List.mem_toFinset.mpr (hadjacent v hv u hu (Ne.symm hne))
    · intro corners hcorners others hothers heq
      have hv := (Finset.mem_filter.mp hcorners).2
      have hv' := (Finset.mem_filter.mp hothers).2
      rw [← Finset.insert_erase hv, ← Finset.insert_erase hv']
      exact congrArg (insert v) heq
  rw [Finset.card_powersetCard, List.toFinset_card_of_nodup hnodup, ← hg.degree_eq,
    Nat.choose_two_right] at hpairs
  calc _ ≤ 2 * (g.degree v * (g.degree v - 1) / 2) := Nat.mul_le_mul_left 2 hpairs
    _ ≤ g.degree v * (g.degree v - 1) := Nat.mul_div_le _ 2

end Graph

/-- The finder of a graph is ready. -/
theorem Graph.ready_of_triangleFinder {f : TriangleFinder} (h : g.triangleFinder? maxDegree = .ok f) :
    g.isUndirected = true ∧ g.parallel = false ∧ f.Ready g maxDegree := by
  rw [triangleFinder?] at h
  split at h
  · exact absurd h (by simp)
  · rename_i hundirected
    split at h
    · exact absurd h (by simp)
    · rename_i hparallel
      obtain rfl := Except.ok.inj h
      exact ⟨by simpa using hundirected, by simpa using hparallel, rfl, rfl, rfl, rfl, rfl⟩

end PackedGraph
