import Mathlib.Data.Nat.Basic
import Mathlib.Logic.Relation
import Mathlib.Order.Bounds.Basic
import Mathlib.Order.MinMax
import PackedGraph.Analysis.DisjointSets

/-!
# Disjoint sets keep their smallest members

The root of a number is where following the pointers ends.  Finding it changes pointers, and no root;
uniting two sets gives all members of both the smaller of the two roots and leaves the other roots alone.
So after any unions two numbers have one root exactly if the unions connect them, and the root is the
smallest number of its set.

Main statements: `DisjointSets.find_spec`, `DisjointSets.root_union`, `DisjointSets.root_unionAll_new_iff`.
-/

namespace PackedGraph

namespace DisjointSets

variable {s : DisjointSets} {node : Nat}

/-- Where the way from a number along the pointers ends. -/
def root (s : DisjointSets) (node : Nat) : Nat :=
  if _ : s.parent node = node then node else s.root (s.parent node)
termination_by node
decreasing_by exact Nat.lt_of_le_of_ne (s.parent_le node) ‹_›

theorem root_of_parent_eq (h : s.parent node = node) : s.root node = node := by
  rw [root, dif_pos h]

@[simp] theorem root_parent (s : DisjointSets) (node : Nat) : s.root (s.parent node) = s.root node := by
  by_cases h : s.parent node = node
  · rw [h]
  · conv_rhs => rw [root, dif_neg h]

theorem root_le (s : DisjointSets) (node : Nat) : s.root node ≤ node := by
  induction node using Nat.strong_induction_on with
  | h node ih =>
    rw [root]
    split
    · exact Nat.le_refl _
    · rename_i h
      exact (ih _ (Nat.lt_of_le_of_ne (s.parent_le node) h)).trans (s.parent_le node)

@[simp] theorem parent_root (s : DisjointSets) (node : Nat) : s.parent (s.root node) = s.root node := by
  induction node using Nat.strong_induction_on with
  | h node ih =>
    rw [root]
    split
    · assumption
    · rename_i h
      exact ih _ (Nat.lt_of_le_of_ne (s.parent_le node) h)

@[simp] theorem root_root (s : DisjointSets) (node : Nat) : s.root (s.root node) = s.root node :=
  root_of_parent_eq (s.parent_root node)

/-- The root of a number is the smallest of all numbers with that root. -/
theorem isLeast_root (s : DisjointSets) (node : Nat) : IsLeast {other | s.root node = s.root other} (s.root node) := by
  refine ⟨(s.root_root node).symm, ?_⟩
  intro other hother
  rw [Set.mem_ofPred_eq] at hother
  rw [hother]
  exact s.root_le other

/-! ## Linking -/

@[simp] theorem size_link (s : DisjointSets) {node target : Nat} (h : target ≤ node) :
    (s.link node target h).size = s.size := by
  simp [link, size]

theorem parent_link {target : Nat} (h : target ≤ node) (hnode : node < s.size) (i : Nat) :
    (s.link node target h).parent i = if i = node then target else s.parent i := by
  rw [parent, link, Array.getD_eq_getD_getElem?, Array.getElem?_setIfInBounds]
  by_cases heq : i = node
  · subst heq
    rw [if_pos rfl, if_pos rfl, if_pos (show i < s.parents.size from hnode)]
    rfl
  · rw [if_neg (Ne.symm heq), if_neg heq, parent, Array.getD_eq_getD_getElem?]

/-- A number beyond the size points at itself, so only numbers below it point elsewhere. -/
theorem lt_size_of_parent_ne (h : s.parent node ≠ node) : node < s.size := by
  by_contra hge
  refine h ?_
  rw [parent, Array.getD_eq_getD_getElem?, Array.getElem?_eq_none (Nat.le_of_not_lt hge)]
  rfl

/-- A number that is moved to a smaller one of its set keeps its root, and so does every other. -/
theorem root_link_of_root_eq {target : Nat} (hlt : target < node) (hparent : s.parent node ≠ node)
    (hroot : s.root target = s.root node) (i : Nat) :
    (s.link node target hlt.le).root i = s.root i := by
  have hnode := lt_size_of_parent_ne hparent
  induction i using Nat.strong_induction_on with
  | h i ih =>
    by_cases hi : i = node
    · subst hi
      have hmoved : (s.link i target hlt.le).parent i = target := by
        rw [parent_link hlt.le hnode, if_pos rfl]
      rw [← root_parent, hmoved, ih target hlt, hroot]
    · have hsame : (s.link node target hlt.le).parent i = s.parent i := by
        rw [parent_link hlt.le hnode, if_neg hi]
      by_cases htop : s.parent i = i
      · rw [root_of_parent_eq (hsame.trans htop), root_of_parent_eq htop]
      · rw [← root_parent, hsame, ih _ (Nat.lt_of_le_of_ne (s.parent_le i) htop), root_parent]

/-- A root that is moved to a smaller root takes its set along. -/
theorem root_link_of_roots {target : Nat} (hle : target ≤ node) (hnode : node < s.size)
    (htop : s.parent node = node) (htarget : s.parent target = target) (i : Nat) :
    (s.link node target hle).root i = if s.root i = node then target else s.root i := by
  induction i using Nat.strong_induction_on with
  | h i ih =>
    by_cases hi : i = node
    · subst hi
      rw [root_of_parent_eq htop, if_pos rfl]
      by_cases heq : target = i
      · subst heq
        exact root_of_parent_eq (by rw [parent_link hle hnode, if_pos rfl])
      · have hmoved : (s.link i target hle).parent i = target := by
          rw [parent_link hle hnode, if_pos rfl]
        have hstays : (s.link i target hle).parent target = target := by
          rw [parent_link hle hnode, if_neg heq, htarget]
        rw [← root_parent, hmoved, root_of_parent_eq hstays]
    · have hsame : (s.link node target hle).parent i = s.parent i := by
        rw [parent_link hle hnode, if_neg hi]
      by_cases hroot : s.parent i = i
      · rw [root_of_parent_eq (hsame.trans hroot), root_of_parent_eq hroot, if_neg hi]
      · rw [← root_parent, hsame, ih _ (Nat.lt_of_le_of_ne (s.parent_le i) hroot), root_parent]

/-! ## Finding -/

/-- Finding yields the root; halving the path to it moves no number to another set. -/
theorem find_spec (node : Nat) : ∀ s : DisjointSets, (s.find node).1 = s.root node ∧
    (s.find node).2.size = s.size ∧ ∀ i, (s.find node).2.root i = s.root i := by
  induction node using Nat.strong_induction_on with
  | h node ih =>
    intro s
    rw [find]
    by_cases htop : s.parent node = node
    · rw [dif_pos htop]
      exact ⟨(root_of_parent_eq htop).symm, rfl, fun _ => rfl⟩
    · rw [dif_neg htop]
      have hparent : s.parent node < node := Nat.lt_of_le_of_ne (s.parent_le node) htop
      have hgrand : s.parent (s.parent node) < node := Nat.lt_of_le_of_lt (s.parent_le _) hparent
      dsimp only
      split
      · obtain ⟨hfound, hsize, hroots⟩ := ih _ hgrand s
        exact ⟨by rw [hfound, root_parent, root_parent], hsize, hroots⟩
      · have hlink := root_link_of_root_eq hgrand htop (by rw [root_parent, root_parent])
        obtain ⟨hfound, hsize, hroots⟩ := ih _ hgrand (s.link node _ hgrand.le)
        refine ⟨?_, by rw [hsize, size_link], fun i => by rw [hroots, hlink]⟩
        rw [hfound, hlink, root_parent, root_parent]

/-- Finding two roots, one after the other, moves no number to another set either. -/
theorem find_find_spec (left right : Nat) (s : DisjointSets) :
    (s.find left).1 = s.root left ∧ ((s.find left).2.find right).1 = s.root right ∧
      ((s.find left).2.find right).2.size = s.size ∧
      ∀ i, ((s.find left).2.find right).2.root i = s.root i := by
  obtain ⟨hfirst, hsize, hroots⟩ := find_spec left s
  obtain ⟨hsecond, hsizes, hrootss⟩ := find_spec right (s.find left).2
  exact ⟨hfirst, hsecond.trans (hroots right), hsizes.trans hsize, fun i => (hrootss i).trans (hroots i)⟩

/-! ## Uniting -/

@[simp] theorem size_union (s : DisjointSets) (left right : Nat) : (s.union left right).size = s.size := by
  obtain ⟨-, -, hsize, -⟩ := find_find_spec left right s
  simp only [union]
  split <;> rw [size_link, hsize]

/-- Uniting gives the members of both sets the smaller root, and leaves the other sets alone. -/
theorem root_union {left right : Nat} (hleft : left < s.size) (hright : right < s.size) (i : Nat) :
    (s.union left right).root i =
      if s.root i = s.root left ∨ s.root i = s.root right then min (s.root left) (s.root right)
      else s.root i := by
  obtain ⟨hfirst, hsecond, hsize, hkeeps⟩ := find_find_spec left right s
  have htop : ∀ j, ((s.find left).2.find right).2.parent (s.root j) = s.root j := fun j => by
    rw [← hkeeps, parent_root]
  have hlt : ∀ {j}, j < s.size → s.root j < ((s.find left).2.find right).2.size := fun hj => by
    rw [hsize]
    exact (s.root_le _).trans_lt hj
  rw [union]
  simp only [hfirst, hsecond]
  split
  · rename_i hle
    rw [root_link_of_roots hle (hlt hright) (htop right) (htop left), hkeeps, Nat.min_eq_left hle]
    by_cases hi : s.root i = s.root right
    · rw [if_pos hi, if_pos (.inr hi)]
    · by_cases hi' : s.root i = s.root left
      · rw [if_neg hi, if_pos (.inl hi'), hi']
      · rw [if_neg hi, if_neg (by simp [hi, hi'])]
  · rename_i hlt'
    have hle := Nat.le_of_not_le hlt'
    rw [root_link_of_roots hle (hlt hleft) (htop left) (htop right), hkeeps, Nat.min_eq_right hle]
    by_cases hi : s.root i = s.root left
    · rw [if_pos hi, if_pos (.inl hi)]
    · by_cases hi' : s.root i = s.root right
      · rw [if_neg hi, if_pos (.inr hi'), hi']
      · rw [if_neg hi, if_neg (by simp [hi, hi'])]

/-- Two numbers that are united have one root from then on. -/
theorem root_union_eq {left right : Nat} (hleft : left < s.size) (hright : right < s.size) :
    (s.union left right).root left = (s.union left right).root right := by
  rw [root_union hleft hright, root_union hleft hright, if_pos (.inl rfl), if_pos (.inr rfl)]

/-- Numbers with one root keep one root. -/
theorem root_union_congr {left right i j : Nat} (hleft : left < s.size) (hright : right < s.size)
    (h : s.root i = s.root j) : (s.union left right).root i = (s.union left right).root j := by
  rw [root_union hleft hright, root_union hleft hright, h]

/-- Numbers that come to have one root were connected before, or through the two that are united. -/
theorem root_union_cases {left right i j : Nat} (hleft : left < s.size) (hright : right < s.size)
    (h : (s.union left right).root i = (s.union left right).root j) :
    s.root i = s.root j ∨ (s.root i = s.root left ∧ s.root j = s.root right) ∨
      (s.root i = s.root right ∧ s.root j = s.root left) := by
  rw [root_union hleft hright, root_union hleft hright] at h
  have hmin := min_choice (s.root left) (s.root right)
  grind

/-! ## Many unions -/

/-- Unite the numbers of each pair. -/
def unionAll (s : DisjointSets) (pairs : List (Nat × Nat)) : DisjointSets :=
  pairs.foldl (fun sets pair => sets.union pair.1 pair.2) s

@[simp] theorem size_unionAll (s : DisjointSets) (pairs : List (Nat × Nat)) :
    (s.unionAll pairs).size = s.size := by
  induction pairs generalizing s with
  | nil => rfl
  | cons pair pairs ih => exact (ih _).trans (s.size_union _ _)

/-- What has one root keeps one root, and every pair that is united has one. -/
theorem root_unionAll_of_mem {pairs : List (Nat × Nat)}
    (hpairs : ∀ pair ∈ pairs, pair.1 < s.size ∧ pair.2 < s.size) :
    (∀ i j, s.root i = s.root j → (s.unionAll pairs).root i = (s.unionAll pairs).root j) ∧
      ∀ pair ∈ pairs, (s.unionAll pairs).root pair.1 = (s.unionAll pairs).root pair.2 := by
  induction pairs generalizing s with
  | nil => exact ⟨fun _ _ h => h, by simp⟩
  | cons pair pairs ih =>
    obtain ⟨hleft, hright⟩ := hpairs pair List.mem_cons_self
    have hlater : ∀ other ∈ pairs, other.1 < (s.union pair.1 pair.2).size ∧
        other.2 < (s.union pair.1 pair.2).size := by
      intro other hother
      rw [size_union]
      exact hpairs other (List.mem_cons_of_mem _ hother)
    obtain ⟨hkeep, hunite⟩ := ih hlater
    refine ⟨fun i j h => hkeep i j (root_union_congr hleft hright h), fun other hother => ?_⟩
    rcases List.mem_cons.mp hother with rfl | hother
    · exact hkeep _ _ (root_union_eq hleft hright)
    · exact hunite other hother

/-- An equivalence that holds for every pair and for whatever has one root at first holds for whatever
has one root at last. -/
theorem rel_of_root_unionAll {r : Nat → Nat → Prop} (hr : Equivalence r) {pairs : List (Nat × Nat)}
    (hpairs : ∀ pair ∈ pairs, pair.1 < s.size ∧ pair.2 < s.size) (hrel : ∀ pair ∈ pairs, r pair.1 pair.2)
    (hstart : ∀ i j, s.root i = s.root j → r i j) {i j : Nat}
    (h : (s.unionAll pairs).root i = (s.unionAll pairs).root j) : r i j := by
  induction pairs generalizing s with
  | nil => exact hstart i j h
  | cons pair pairs ih =>
    obtain ⟨hleft, hright⟩ := hpairs pair List.mem_cons_self
    have hpair := hrel pair List.mem_cons_self
    refine ih (s := s.union pair.1 pair.2) ?_ (fun other hother => hrel other (List.mem_cons_of_mem _ hother))
      ?_ h
    · intro other hother
      rw [size_union]
      exact hpairs other (List.mem_cons_of_mem _ hother)
    · intro a b hab
      rcases root_union_cases hleft hright hab with hab | ⟨ha, hb⟩ | ⟨ha, hb⟩
      · exact hstart a b hab
      · exact hr.trans (hstart _ _ ha) (hr.trans hpair (hr.symm (hstart _ _ hb)))
      · exact hr.trans (hstart _ _ ha) (hr.trans (hr.symm hpair) (hr.symm (hstart _ _ hb)))

/-! ## New sets and all roots -/

@[simp] theorem size_new (size : Nat) : (new size).size = size := by simp [new, DisjointSets.size]

@[simp] theorem root_new (size node : Nat) : (new size).root node = node := by
  apply root_of_parent_eq
  rw [parent, new, Array.getD_eq_getD_getElem?]
  by_cases h : node < size <;> simp [h]

/-- Whether pairs lead from one number to another, in either direction. -/
def Connected (pairs : List (Nat × Nat)) : Nat → Nat → Prop :=
  Relation.ReflTransGen fun a b => (a, b) ∈ pairs ∨ (b, a) ∈ pairs

theorem equivalence_connected (pairs : List (Nat × Nat)) : Equivalence (Connected pairs) := by
  have hsymm : Std.Symm fun a b => (a, b) ∈ pairs ∨ (b, a) ∈ pairs := ⟨fun a b => Or.symm⟩
  exact ⟨fun _ => Relation.ReflTransGen.refl, fun h => Relation.ReflTransGen.stdSymm.symm _ _ h,
    Relation.ReflTransGen.trans⟩

/-- When pairs have been united, in whatever order, two numbers have one root exactly if the pairs connect
them. -/
theorem root_unionAll_new_iff {size : Nat} {pairs : List (Nat × Nat)}
    (hpairs : ∀ pair ∈ pairs, pair.1 < size ∧ pair.2 < size) {i j : Nat} :
    ((new size).unionAll pairs).root i = ((new size).unionAll pairs).root j ↔ Connected pairs i j := by
  have hlt : ∀ pair ∈ pairs, pair.1 < (new size).size ∧ pair.2 < (new size).size := by
    rwa [size_new]
  constructor
  · intro h
    refine rel_of_root_unionAll (equivalence_connected pairs) hlt ?_ ?_ h
    · exact fun pair hpair => Relation.ReflTransGen.single (.inl hpair)
    · intro a b hab
      rw [root_new, root_new] at hab
      exact hab ▸ (equivalence_connected pairs).refl a
  · intro h
    have hunited := (root_unionAll_of_mem hlt).2
    induction h with
    | refl => rfl
    | tail _ hlast ih =>
      rcases hlast with hlast | hlast
      · exact ih.trans (hunited _ hlast)
      · exact ih.trans (hunited _ hlast).symm

/-- All roots are found, whatever finding does to the pointers. -/
theorem roots_eq (s : DisjointSets) : s.roots = ((List.range s.size).map s.root).toArray := by
  have hfold : ∀ (nodes : List Nat) (t : DisjointSets) (roots : Array Nat), (∀ i, t.root i = s.root i) →
      (nodes.foldl (fun (found : Array Nat × DisjointSets) node =>
        (found.1.push (find found.2 node).1, (find found.2 node).2)) (roots, t)).1 =
      roots ++ (nodes.map s.root).toArray := by
    intro nodes
    induction nodes with
    | nil => intro t roots _; simp
    | cons node nodes ih =>
      intro t roots hroots
      obtain ⟨hfound, -, hkeeps⟩ := find_spec node t
      rw [List.foldl_cons]
      simp only [hfound, hroots]
      rw [ih _ _ fun i => (hkeeps i).trans (hroots i)]
      apply Array.ext'
      simp
  refine (hfold _ s #[] fun _ => rfl).trans ?_
  apply Array.ext'
  simp

end DisjointSets

end PackedGraph
