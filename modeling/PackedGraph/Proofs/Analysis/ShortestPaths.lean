import Mathlib.Algebra.BigOperators.Field
import Mathlib.Algebra.BigOperators.Ring.Finset
import Mathlib.Data.Rat.Cast.Order
import Mathlib.Data.Set.Card
import Mathlib.Tactic.FieldSimp
import Mathlib.Tactic.Linarith
import Mathlib.Tactic.Ring

/-!
# Shortest paths and their numbers

A path is given by the places of its relationships, each among the relationships of the node where it
starts, so parallel relationships make different paths.  Where every relationship has a positive length,
distances single out the *tight* paths, those that are as long as the distance they cover: the shortest
paths from the source are the tight ones, and any piece of a tight path is tight.  Tight paths can be counted by
their first relationship or by their last, and the shortest paths through a node by their two halves.  The
share of shortest paths through a node, summed over the nodes where they end, is Brandes' dependency: it
can be had from the dependencies of the nodes behind.

Main statements: `Distances.shortest_eq`, `Distances.count_eq_first`, `Distances.count_eq_last`,
`Distances.ncard_shortestThrough` and `Distances.dependencyOn_eq`.
-/

namespace PackedGraph

/-- The relationships of every node, in order: where each leads, and how long it is. -/
abbrev Ways := Nat → List (Nat × ℚ)

/-- From a node, the relationships at the given places lead, one after the other, to another node; how long
they are together. -/
inductive Leads (ways : Ways) : Nat → List Nat → Nat → ℚ → Prop where
  | stay (u : Nat) : Leads ways u [] u 0
  | step {u place v : Nat} {w : ℚ} {rest : List Nat} {t : Nat} {c : ℚ} :
      (ways u)[place]? = some (v, w) → Leads ways v rest t c → Leads ways u (place :: rest) t (w + c)

namespace Ways

variable (ways : Ways)

/-- Every relationship has a positive length. -/
def Positive : Prop := ∀ u, ∀ a ∈ ways u, 0 < a.2

/-- Whether some path leads from a node to another. -/
def Reaches (s t : Nat) : Prop := ∃ path c, Leads ways s path t c

/-- How far a node is from another: some path is as long, and none is shorter. -/
def IsDistance (s t : Nat) (c : ℚ) : Prop :=
  (∃ path, Leads ways s path t c) ∧ ∀ path c', Leads ways s path t c' → c ≤ c'

/-- The shortest paths from a node to another. -/
def shortest (s t : Nat) : Set (List Nat) :=
  {path | ∃ c, Leads ways s path t c ∧ ∀ other c', Leads ways s other t c' → c ≤ c'}

/-- Those that go through a node. -/
def shortestThrough (s t v : Nat) : Set (List Nat) :=
  {path | path ∈ shortest ways s t ∧ ∃ front back c, path = front ++ back ∧ Leads ways s front v c}

end Ways

variable {ways : Ways}

/-! ## Paths -/

namespace Leads

variable {u v t : Nat} {path other : List Nat} {c c' : ℚ}

/-- A path leads to one node. -/
theorem unique (h : Leads ways u path t c) {t' : Nat} (h' : Leads ways u path t' c') : t = t' ∧ c = c' := by
  induction h generalizing t' c' with
  | stay u =>
    cases h'
    exact ⟨rfl, rfl⟩
  | step hplace _ ih =>
    cases h' with
    | step hplace' hrest =>
      rw [hplace] at hplace'
      obtain ⟨rfl, rfl⟩ := Prod.mk.inj (Option.some.inj hplace')
      obtain ⟨rfl, rfl⟩ := ih hrest
      exact ⟨rfl, rfl⟩

theorem append (h : Leads ways u path v c) (h' : Leads ways v other t c') :
    Leads ways u (path ++ other) t (c + c') := by
  induction h with
  | stay u =>
    rw [List.nil_append, zero_add]
    exact h'
  | step hplace _ ih =>
    rw [List.cons_append, add_assoc]
    exact .step hplace (ih h')

/-- A path of two pieces leads through the node where they meet. -/
theorem split (h : Leads ways u (path ++ other) t c) :
    ∃ v c₁ c₂, Leads ways u path v c₁ ∧ Leads ways v other t c₂ ∧ c = c₁ + c₂ := by
  induction path generalizing u c with
  | nil => exact ⟨u, 0, c, .stay u, h, (zero_add c).symm⟩
  | cons place path ih =>
    cases h with
    | step hplace hrest =>
      obtain ⟨v, c₁, c₂, hfront, hback, rfl⟩ := ih hrest
      exact ⟨v, _, c₂, .step hplace hfront, hback, (add_assoc _ _ _).symm⟩

theorem nonneg (hpositive : ways.Positive) (h : Leads ways u path t c) : 0 ≤ c := by
  induction h with
  | stay u => exact le_refl _
  | step hplace _ ih => exact add_nonneg (hpositive _ _ (List.mem_of_getElem? hplace)).le ih

/-- Only the path that stays has no length. -/
theorem eq_nil_of_zero (hpositive : ways.Positive) (h : Leads ways u path t 0) : path = [] := by
  generalize hc : (0 : ℚ) = c at h
  cases h with
  | stay u => rfl
  | step hplace hrest =>
    have hfirst := hpositive _ _ (List.mem_of_getElem? hplace)
    have hothers := hrest.nonneg hpositive
    simp only at hfirst
    linarith

end Leads

namespace Ways.IsDistance

variable {s t : Nat} {c c' : ℚ}

theorem reaches (h : ways.IsDistance s t c) : ways.Reaches s t := by
  obtain ⟨⟨path, hpath⟩, -⟩ := h
  exact ⟨path, c, hpath⟩

/-- There is only one distance. -/
theorem unique (h : ways.IsDistance s t c) (h' : ways.IsDistance s t c') : c = c' := by
  obtain ⟨⟨path, hpath⟩, hleast⟩ := h
  obtain ⟨⟨path', hpath'⟩, hleast'⟩ := h'
  exact le_antisymm (hleast path' c' hpath') (hleast' path c hpath)

end Ways.IsDistance

/-! ## Distances -/

/-- The distances from a source to the nodes that can be reached. -/
structure Distances (ways : Ways) (source : Nat) (nodes : Finset Nat) (d : Nat → ℚ) : Prop where
  /-- Every relationship has a positive length. -/
  positive : ways.Positive
  /-- The source can be reached, -/
  source_mem : source ∈ nodes
  /-- and is where it is. -/
  source_eq : d source = 0
  /-- A relationship leads to a node that can be reached, and is no shortcut. -/
  step : ∀ u ∈ nodes, ∀ a ∈ ways u, a.1 ∈ nodes ∧ d a.1 ≤ d u + a.2
  /-- Every other node is reached by a relationship that covers a distance of its length. -/
  attained : ∀ v ∈ nodes, v ≠ source → ∃ u ∈ nodes, (v, d v - d u) ∈ ways u

/-- How many relationships from a node to another are as long as the distance they cover. -/
def tightCount (ways : Ways) (d : Nat → ℚ) (u v : Nat) : Nat := (ways u).count (v, d v - d u)

/-- The paths from a node to another that are as long as the distance they cover. -/
def tight (ways : Ways) (d : Nat → ℚ) (u v : Nat) : Set (List Nat) :=
  {path | Leads ways u path v (d v - d u)}

namespace Distances

variable {source : Nat} {nodes : Finset Nat} {d : Nat → ℚ} {u v t : Nat} {path : List Nat} {c : ℚ}

/-- No path is a shortcut. -/
theorem le_add (h : Distances ways source nodes d) (hu : u ∈ nodes) (hpath : Leads ways u path v c) :
    v ∈ nodes ∧ d v ≤ d u + c := by
  induction hpath with
  | stay u => exact ⟨hu, by linarith⟩
  | step hplace _ ih =>
    obtain ⟨hmem, hle⟩ := h.step _ hu _ (List.mem_of_getElem? hplace)
    obtain ⟨ht, hle'⟩ := ih hmem
    exact ⟨ht, by simp only at hle; linarith⟩

/-- What holds of a node as soon as it holds of all nodes that are nearer. -/
theorem induction_near (nodes : Finset Nat) (d : Nat → ℚ) {P : Nat → Prop}
    (hnode : ∀ v ∈ nodes, (∀ u ∈ nodes, d u < d v → P u) → P v) : ∀ v ∈ nodes, P v := by
  intro v hv
  induction hcard : (nodes.filter fun u => d u < d v).card using Nat.strongRecOn generalizing v with
  | ind count ih =>
    refine hnode v hv fun u hu hlt => ih _ ?_ u hu rfl
    rw [← hcard]
    refine Finset.card_lt_card (Finset.ssubset_iff_subset_ne.mpr ⟨fun x hx => ?_, fun heq => ?_⟩)
    · rw [Finset.mem_filter] at hx ⊢
      exact ⟨hx.1, hx.2.trans hlt⟩
    · have hmem : u ∈ nodes.filter fun x => d x < d v := Finset.mem_filter.mpr ⟨hu, hlt⟩
      rw [← heq, Finset.mem_filter] at hmem
      exact lt_irrefl _ hmem.2

/-- What holds of a node as soon as it holds of all nodes that are farther. -/
theorem induction_far (nodes : Finset Nat) (d : Nat → ℚ) {P : Nat → Prop}
    (hnode : ∀ v ∈ nodes, (∀ u ∈ nodes, d v < d u → P u) → P v) : ∀ v ∈ nodes, P v :=
  induction_near nodes (fun v => -d v) fun v hv hfar =>
    hnode v hv fun u hu hlt => hfar u hu (neg_lt_neg hlt)

/-- A tight relationship leads farther away. -/
theorem lt_of_mem_ways (h : Distances ways source nodes d) (ha : (v, d v - d u) ∈ ways u) : d u < d v := by
  have := h.positive u _ ha
  simp only at this
  linarith

/-- Every node is reached by a path as long as its distance. -/
theorem exists_leads (h : Distances ways source nodes d) :
    ∀ v ∈ nodes, ∃ path, Leads ways source path v (d v) := by
  refine induction_near nodes d fun v hv hnear => ?_
  by_cases hsource : v = source
  · subst hsource
    exact ⟨[], h.source_eq ▸ .stay v⟩
  · obtain ⟨u, hu, ha⟩ := h.attained v hv hsource
    obtain ⟨path, hpath⟩ := hnear u hu (h.lt_of_mem_ways ha)
    obtain ⟨place, hplace⟩ := List.mem_iff_getElem?.mp ha
    have hlonger := hpath.append (.step hplace (.stay v))
    rw [add_zero, add_sub_cancel] at hlonger
    exact ⟨_, hlonger⟩

/-- The source is the nearest node. -/
theorem source_lt (h : Distances ways source nodes d) (hv : v ∈ nodes) (hne : v ≠ source) : d source < d v := by
  obtain ⟨path, hpath⟩ := h.exists_leads v hv
  rw [h.source_eq]
  refine lt_of_le_of_ne (hpath.nonneg h.positive) fun hzero => ?_
  rw [← hzero] at hpath
  obtain rfl := hpath.eq_nil_of_zero h.positive
  cases hpath
  exact hne rfl

theorem reaches_iff (h : Distances ways source nodes d) : ways.Reaches source t ↔ t ∈ nodes := by
  constructor
  · rintro ⟨path, c, hpath⟩
    exact (h.le_add h.source_mem hpath).1
  · intro ht
    obtain ⟨path, hpath⟩ := h.exists_leads t ht
    exact ⟨path, d t, hpath⟩

/-- The distances are those of shortest paths. -/
theorem isDistance_iff (h : Distances ways source nodes d) : ways.IsDistance source t c ↔ t ∈ nodes ∧ c = d t := by
  have hleast : ∀ path c', Leads ways source path t c' → t ∈ nodes ∧ d t ≤ c' := by
    intro path c' hpath
    obtain ⟨ht, hle⟩ := h.le_add h.source_mem hpath
    rw [h.source_eq, zero_add] at hle
    exact ⟨ht, hle⟩
  constructor
  · rintro ⟨⟨path, hpath⟩, hc⟩
    obtain ⟨ht, hle⟩ := hleast path c hpath
    obtain ⟨best, hbest⟩ := h.exists_leads t ht
    exact ⟨ht, le_antisymm (hc best (d t) hbest) hle⟩
  · rintro ⟨ht, rfl⟩
    exact ⟨h.exists_leads t ht, fun path c' hpath => (hleast path c' hpath).2⟩

/-- The shortest paths from the source are the tight ones. -/
theorem shortest_eq (h : Distances ways source nodes d) (ht : t ∈ nodes) :
    ways.shortest source t = tight ways d source t := by
  obtain ⟨best, hbest⟩ := h.exists_leads t ht
  ext path
  simp only [Ways.shortest, tight, Set.mem_ofPred_eq, h.source_eq, sub_zero]
  constructor
  · rintro ⟨c, hpath, hleast⟩
    have hle := hleast best (d t) hbest
    have hge := (h.le_add h.source_mem hpath).2
    rw [h.source_eq, zero_add] at hge
    rwa [le_antisymm hge hle]
  · intro hpath
    refine ⟨d t, hpath, fun other c hother => ?_⟩
    have := (h.le_add h.source_mem hother).2
    rwa [h.source_eq, zero_add] at this

/-- Both pieces of a tight path are tight. -/
theorem tight_pieces (h : Distances ways source nodes d) (hu : u ∈ nodes) {front back : List Nat} {c₁ c₂ : ℚ}
    (hfront : Leads ways u front v c₁) (hback : Leads ways v back t c₂) (hsum : d t - d u = c₁ + c₂) :
    c₁ = d v - d u ∧ c₂ = d t - d v := by
  obtain ⟨hv, hle⟩ := h.le_add hu hfront
  have hle' := (h.le_add hv hback).2
  constructor <;> linarith

/-- No tight path leads nearer. -/
theorem tight_eq_empty (h : Distances ways source nodes d) (hlt : d v < d u) : tight ways d u v = ∅ := by
  refine Set.eq_empty_iff_forall_notMem.mpr fun path hpath => ?_
  have := Leads.nonneg h.positive hpath
  linarith

/-- Only the path that stays is a tight one from a node to itself. -/
theorem tight_self (h : Distances ways source nodes d) (u : Nat) : tight ways d u u = {[]} := by
  ext path
  simp only [tight, sub_self, Set.mem_ofPred_eq, Set.mem_singleton_iff]
  constructor
  · exact Leads.eq_nil_of_zero h.positive
  · rintro rfl
    exact .stay u

end Distances

/-! ## Counting by the first relationship -/

/-- The paths that begin with one of some relationships and go on as that one allows. -/
def choices {α : Type} (firsts : List α) (later : α → Set (List Nat)) : Set (List Nat) :=
  {path | ∃ place a rest, path = place :: rest ∧ firsts[place]? = some a ∧ rest ∈ later a}

theorem choices_append_singleton {α : Type} (firsts : List α) (a : α) (later : α → Set (List Nat)) :
    choices (firsts ++ [a]) later =
      choices firsts later ∪ (fun rest => firsts.length :: rest) '' later a := by
  ext path
  simp only [choices, Set.mem_union, Set.mem_image, Set.mem_ofPred_eq]
  constructor
  · rintro ⟨place, b, rest, rfl, hplace, hrest⟩
    rcases Nat.lt_trichotomy place firsts.length with hlt | rfl | hgt
    · rw [List.getElem?_append_left hlt] at hplace
      exact .inl ⟨place, b, rest, rfl, hplace, hrest⟩
    · rw [List.getElem?_append_right (Nat.le_refl _), Nat.sub_self] at hplace
      obtain rfl := Option.some.inj hplace
      exact .inr ⟨rest, hrest, rfl⟩
    · rw [List.getElem?_eq_none (by simpa using hgt)] at hplace
      exact absurd hplace (by simp)
  · rintro (⟨place, b, rest, rfl, hplace, hrest⟩ | ⟨rest, hrest, rfl⟩)
    · have hlt := (List.getElem?_eq_some_iff.mp hplace).1
      exact ⟨place, b, rest, rfl, by rw [List.getElem?_append_left hlt, hplace], hrest⟩
    · exact ⟨firsts.length, a, rest, rfl, by simp, hrest⟩

/-- The paths are counted one first relationship after the other. -/
theorem ncard_choices {α : Type} (firsts : List α) (later : α → Set (List Nat))
    (hfinite : ∀ a ∈ firsts, (later a).Finite) :
    (choices firsts later).Finite ∧
      (choices firsts later).ncard = (firsts.map fun a => (later a).ncard).sum := by
  induction firsts using List.reverseRecOn with
  | nil =>
    have hempty : choices [] later = ∅ := by
      ext path
      simp [choices]
    rw [hempty]
    exact ⟨Set.finite_empty, Set.ncard_empty _⟩
  | append_singleton firsts a ih =>
    obtain ⟨hbefore, hcount⟩ := ih fun b hb => hfinite b (List.mem_append_left _ hb)
    have hlast : ((fun rest => firsts.length :: rest) '' later a).Finite :=
      (hfinite a (by simp)).image _
    have hinjective : Function.Injective fun rest : List Nat => firsts.length :: rest :=
      fun x y heq => (List.cons.inj heq).2
    have hdisjoint : Disjoint (choices firsts later) ((fun rest => firsts.length :: rest) '' later a) := by
      rw [Set.disjoint_left]
      rintro path ⟨place, b, rest, rfl, hplace, -⟩ ⟨other, -, heq⟩
      have hlt := (List.getElem?_eq_some_iff.mp hplace).1
      have := (List.cons.inj heq).1
      omega
    rw [choices_append_singleton]
    refine ⟨hbefore.union hlast, ?_⟩
    rw [Set.ncard_union_eq hdisjoint hbefore hlast, hcount, Set.ncard_image_of_injective _ hinjective]
    simp

namespace Distances

variable {source : Nat} {nodes : Finset Nat} {d : Nat → ℚ} {u v t : Nat}

/-- A tight path stays, or begins with a tight relationship and goes on tightly. -/
theorem tight_eq (h : Distances ways source nodes d) (hu : u ∈ nodes) (v : Nat) :
    tight ways d u v = (if u = v then {[]} else ∅) ∪
      choices (ways u) fun a => if a.2 = d a.1 - d u then tight ways d a.1 v else ∅ := by
  ext path
  simp only [Set.mem_union, choices, Set.mem_ofPred_eq]
  constructor
  · intro hpath
    simp only [tight, Set.mem_ofPred_eq] at hpath
    generalize hc : d v - d u = c at hpath
    cases hpath with
    | stay u => exact .inl (by simp)
    | step hplace hrest =>
      have hfirst := Leads.step hplace (.stay _)
      rw [add_zero] at hfirst
      obtain ⟨hw, hc'⟩ := h.tight_pieces hu hfirst hrest hc
      refine .inr ⟨_, _, _, rfl, hplace, ?_⟩
      rw [if_pos hw]
      simpa only [tight, Set.mem_ofPred_eq, hc'] using hrest
  · rintro (hstay | ⟨place, ⟨x, w⟩, rest, rfl, hplace, hrest⟩)
    · split at hstay
      · rename_i heq
        rw [← heq, h.tight_self]
        exact hstay
      · exact absurd hstay (Set.notMem_empty _)
    · split at hrest
      · rename_i hw
        simp only at hw
        have hpath := Leads.step hplace hrest
        rw [hw, show d x - d u + (d v - d x) = d v - d u by ring] at hpath
        exact hpath
      · exact absurd hrest (Set.notMem_empty _)

/-- Tight relationships are counted by the nodes to which they lead. -/
theorem sum_tightCount (d : Nat → ℚ) (u : Nat) (f : Nat → Nat) {firsts : List (Nat × ℚ)}
    (hmem : ∀ a ∈ firsts, a.1 ∈ nodes) :
    (firsts.map fun a => if a.2 = d a.1 - d u then f a.1 else 0).sum =
      ∑ x ∈ nodes, firsts.count (x, d x - d u) * f x := by
  induction firsts with
  | nil => simp
  | cons a firsts ih =>
    obtain ⟨y, w⟩ := a
    have hy := hmem (y, w) List.mem_cons_self
    have hcounts : ∀ x, ((y, w) :: firsts).count (x, d x - d u) * f x =
        (if y = x ∧ w = d x - d u then f x else 0) + firsts.count (x, d x - d u) * f x := by
      intro x
      rw [List.count_cons, Nat.add_mul, Nat.add_comm]
      congr 1
      by_cases heq : y = x ∧ w = d x - d u
      · simp [heq.1, heq.2]
      · have hne : ¬ (y, w) = (x, d x - d u) := fun hpair => heq (Prod.mk.inj hpair)
        simp [hne, heq]
    have hfirst : ∑ x ∈ nodes, (if y = x ∧ w = d x - d u then f x else 0) =
        if w = d y - d u then f y else 0 := by
      rw [Finset.sum_eq_single_of_mem y hy]
      · simp
      · intro x _ hne
        exact if_neg fun heq => hne heq.1.symm
    rw [List.map_cons, List.sum_cons, ih fun b hb => hmem b (List.mem_cons_of_mem _ hb)]
    simp only [hcounts, Finset.sum_add_distrib, hfirst]

/-- **Counting by the first relationship.**  There are finitely many tight paths, and those that do not
stay are counted by the tight relationships with which they begin. -/
theorem count_eq_first (h : Distances ways source nodes d) (v : Nat) : ∀ u ∈ nodes,
    (tight ways d u v).Finite ∧ (tight ways d u v).ncard =
      (if u = v then 1 else 0) + ∑ x ∈ nodes, tightCount ways d u x * (tight ways d x v).ncard := by
  refine induction_far nodes d fun u hu hfar => ?_
  have hlater : ∀ a ∈ ways u,
      (if a.2 = d a.1 - d u then tight ways d a.1 v else (∅ : Set (List Nat))).Finite := by
    rintro ⟨x, w⟩ ha
    by_cases hw : w = d x - d u
    · subst hw
      rw [if_pos rfl]
      exact (hfar x (h.step u hu _ ha).1 (h.lt_of_mem_ways ha)).1
    · rw [if_neg hw]
      exact Set.finite_empty
  obtain ⟨hfinite, hcount⟩ := ncard_choices (ways u) _ hlater
  have hstay : (if u = v then {[]} else (∅ : Set (List Nat))).Finite := by
    split
    · exact Set.finite_singleton _
    · exact Set.finite_empty
  have hdisjoint : Disjoint (if u = v then {[]} else (∅ : Set (List Nat)))
      (choices (ways u) fun a => if a.2 = d a.1 - d u then tight ways d a.1 v else ∅) := by
    rw [Set.disjoint_left]
    rintro path hpath ⟨place, a, rest, rfl, -, -⟩
    split at hpath
    · exact absurd hpath (by simp)
    · exact hpath
  have hsum : ((ways u).map fun a =>
      (if a.2 = d a.1 - d u then tight ways d a.1 v else (∅ : Set (List Nat))).ncard).sum =
      ∑ x ∈ nodes, tightCount ways d u x * (tight ways d x v).ncard := by
    have hcards : ∀ a : Nat × ℚ, (if a.2 = d a.1 - d u then tight ways d a.1 v else (∅ : Set (List Nat))).ncard =
        if a.2 = d a.1 - d u then (tight ways d a.1 v).ncard else 0 := by
      intro a
      split
      · rfl
      · exact Set.ncard_empty _
    simp only [hcards]
    exact sum_tightCount d u (fun x => (tight ways d x v).ncard) fun a ha => (h.step u hu a ha).1
  rw [h.tight_eq hu]
  refine ⟨hstay.union hfinite, ?_⟩
  rw [Set.ncard_union_eq hdisjoint hstay hfinite, hcount, hsum]
  congr 1
  split
  · exact Set.ncard_singleton _
  · exact Set.ncard_empty _

theorem lt_of_tightCount_ne_zero (h : Distances ways source nodes d) {x : Nat} (hcount : tightCount ways d u x ≠ 0) :
    d u < d x :=
  h.lt_of_mem_ways (List.count_pos_iff.mp (Nat.pos_of_ne_zero hcount))

/-- No relationship to a node that is no farther is the end of a shortest path. -/
theorem tightCount_eq_zero (h : Distances ways source nodes d) {x : Nat} (hle : d x ≤ d u) :
    tightCount ways d u x = 0 :=
  not_not.mp fun hcount => not_lt_of_ge hle (h.lt_of_tightCount_ne_zero hcount)

/-- **Counting by the last relationship.** -/
theorem count_eq_last (h : Distances ways source nodes d) (hv : v ∈ nodes) : ∀ u ∈ nodes,
    (tight ways d u v).ncard =
      (if u = v then 1 else 0) + ∑ x ∈ nodes, (tight ways d u x).ncard * tightCount ways d x v := by
  refine induction_far nodes d fun u hu hfar => ?_
  -- the first relationship is followed by a path that the hypothesis counts by its last one
  have hlater : ∀ x ∈ nodes, tightCount ways d u x * (tight ways d x v).ncard =
      (if x = v then tightCount ways d u x else 0) +
        ∑ y ∈ nodes, tightCount ways d u x * (tight ways d x y).ncard * tightCount ways d y v := by
    intro x hx
    by_cases hcount : tightCount ways d u x = 0
    · simp only [hcount, Nat.zero_mul, ite_self, Finset.sum_const_zero, Nat.add_zero]
    · rw [hfar x hx (h.lt_of_tightCount_ne_zero hcount), Nat.mul_add, Finset.mul_sum]
      congr 1
      · split <;> simp
      · exact Finset.sum_congr rfl fun y _ => (Nat.mul_assoc _ _ _).symm
  have hearlier : ∀ y ∈ nodes, (tight ways d u y).ncard * tightCount ways d y v =
      (if y = u then tightCount ways d y v else 0) +
        ∑ x ∈ nodes, tightCount ways d u x * (tight ways d x y).ncard * tightCount ways d y v := by
    intro y _
    rw [(h.count_eq_first y u hu).2, Nat.add_mul, Finset.sum_mul]
    congr 1
    by_cases heq : u = y
    · simp [heq]
    · simp [heq, Ne.symm heq]
  rw [(h.count_eq_first v u hu).2, Finset.sum_congr rfl hlater, Finset.sum_congr rfl hearlier,
    Finset.sum_add_distrib, Finset.sum_add_distrib, Finset.sum_ite_eq' nodes v, Finset.sum_ite_eq' nodes u,
    if_pos hv, if_pos hu, Finset.sum_comm]

theorem finite_tight (h : Distances ways source nodes d) (hu : u ∈ nodes) (v : Nat) :
    (tight ways d u v).Finite :=
  (h.count_eq_first v u hu).1

/-- No path leads to a node that cannot be reached. -/
theorem shortest_eq_empty (h : Distances ways source nodes d) (ht : t ∉ nodes) : ways.shortest source t = ∅ :=
  Set.eq_empty_iff_forall_notMem.mpr fun path ⟨c, hpath, _⟩ => ht (h.reaches_iff.mp ⟨path, c, hpath⟩)

theorem finite_shortest (h : Distances ways source nodes d) (t : Nat) : (ways.shortest source t).Finite := by
  by_cases ht : t ∈ nodes
  · rw [h.shortest_eq ht]
    exact h.finite_tight h.source_mem t
  · rw [h.shortest_eq_empty ht]
    exact Set.finite_empty

/-- Some shortest path leads to every node. -/
theorem ncard_pos (h : Distances ways source nodes d) (hv : v ∈ nodes) :
    0 < (tight ways d source v).ncard := by
  obtain ⟨path, hpath⟩ := h.exists_leads v hv
  rw [Set.ncard_pos (h.finite_tight h.source_mem v)]
  refine ⟨path, ?_⟩
  rw [tight, Set.mem_ofPred_eq, h.source_eq, sub_zero]
  exact hpath

/-! ## Paths through a node -/

/-- Two tight paths to a node are the same when they can be continued to the same path. -/
theorem front_unique (h : Distances ways source nodes d) {front front' back back' : List Nat}
    (hfront : front ∈ tight ways d u v) (hfront' : front' ∈ tight ways d u v)
    (heq : front ++ back = front' ++ back') : front = front' := by
  have hnothing : ∀ {x y : List Nat}, x ∈ tight ways d u v → x ++ y ∈ tight ways d u v → y = [] := by
    intro x y hx hxy
    obtain ⟨z, c₁, c₂, hleads, hrest, hsum⟩ := Leads.split hxy
    obtain ⟨rfl, rfl⟩ := Leads.unique hx hleads
    obtain rfl : c₂ = 0 := by linarith
    exact hrest.eq_nil_of_zero h.positive
  rcases List.append_eq_append_iff.mp heq with ⟨middle, rfl, -⟩ | ⟨middle, rfl, -⟩
  · rw [hnothing hfront hfront', List.append_nil]
  · rw [hnothing hfront' hfront, List.append_nil]

/-- The shortest paths through a node are those of two tight halves that meet there. -/
theorem shortestThrough_eq (h : Distances ways source nodes d) (ht : t ∈ nodes) (v : Nat) :
    ways.shortestThrough source t v =
      (fun halves : List Nat × List Nat => halves.1 ++ halves.2) ''
        (tight ways d source v ×ˢ tight ways d v t) := by
  ext path
  rw [Ways.shortestThrough, Set.mem_ofPred_eq, h.shortest_eq ht]
  constructor
  · rintro ⟨hpath, front, back, c, rfl, hfront⟩
    obtain ⟨z, c₁, c₂, hleads, hback, hsum⟩ := Leads.split hpath
    obtain ⟨rfl, rfl⟩ := hfront.unique hleads
    obtain ⟨rfl, rfl⟩ := h.tight_pieces h.source_mem hfront hback hsum
    exact ⟨(front, back), ⟨hfront, hback⟩, rfl⟩
  · rintro ⟨⟨front, back⟩, ⟨hfront, hback⟩, rfl⟩
    refine ⟨?_, front, back, _, rfl, hfront⟩
    have hpath := Leads.append hfront hback
    rw [show d v - d source + (d t - d v) = d t - d source by ring] at hpath
    exact hpath

/-- The shortest paths through a node are counted by their halves. -/
theorem ncard_shortestThrough (h : Distances ways source nodes d) (ht : t ∈ nodes) (v : Nat) :
    (ways.shortestThrough source t v).ncard =
      (tight ways d source v).ncard * (tight ways d v t).ncard := by
  have hinjective : Set.InjOn (fun halves : List Nat × List Nat => halves.1 ++ halves.2)
      (tight ways d source v ×ˢ tight ways d v t) := by
    rintro ⟨front, back⟩ ⟨hfront, -⟩ ⟨front', back'⟩ ⟨hfront', -⟩ heq
    obtain rfl := h.front_unique hfront hfront' heq
    rw [Prod.mk.injEq]
    exact ⟨rfl, List.append_cancel_left heq⟩
  rw [h.shortestThrough_eq ht, hinjective.ncard_image, Set.ncard_prod]

theorem shortestThrough_eq_empty (h : Distances ways source nodes d) (hv : v ∉ nodes) :
    ways.shortestThrough source t v = ∅ := by
  refine Set.eq_empty_iff_forall_notMem.mpr ?_
  rintro path ⟨-, front, back, c, -, hfront⟩
  exact hv (h.le_add h.source_mem hfront).1

end Distances

/-! ## Dependencies -/

/-- How much a source depends on a node: over all other nodes, the share of shortest paths that lead
through it. -/
noncomputable def dependencyOn (ways : Ways) (d : Nat → ℚ) (source : Nat) (nodes : Finset Nat) (v : Nat) : ℚ :=
  ∑ t ∈ nodes.erase v,
    (tight ways d source v).ncard * (tight ways d v t).ncard / ((tight ways d source t).ncard : ℚ)

namespace Distances

variable {source : Nat} {nodes : Finset Nat} {d : Nat → ℚ} {u v t : Nat}

/-- Paths that end at a node count as much as those that go on from it. -/
theorem one_add_dependencyOn (h : Distances ways source nodes d) (hv : v ∈ nodes) :
    1 + dependencyOn ways d source nodes v = (tight ways d source v).ncard *
      ∑ t ∈ nodes, ((tight ways d v t).ncard : ℚ) / (tight ways d source t).ncard := by
  have hpositive : ((tight ways d source v).ncard : ℚ) ≠ 0 := by
    exact_mod_cast (h.ncard_pos hv).ne'
  rw [← Finset.add_sum_erase _ _ hv, h.tight_self, Set.ncard_singleton, mul_add, dependencyOn, Finset.mul_sum]
  congr 1
  · rw [Nat.cast_one, mul_one_div_cancel hpositive]
  · exact Finset.sum_congr rfl fun t _ => mul_div_assoc _ _ _

/-- **Brandes' recurrence.**  A node passes on to each node in front of it a share of what depends on it,
and of itself. -/
theorem dependencyOn_eq (h : Distances ways source nodes d) (hv : v ∈ nodes) :
    dependencyOn ways d source nodes v = ∑ w ∈ nodes, tightCount ways d v w *
      ((tight ways d source v).ncard / ((tight ways d source w).ncard : ℚ) *
        (1 + dependencyOn ways d source nodes w)) := by
  have hfirst : ∀ t ∈ nodes.erase v, ((tight ways d v t).ncard : ℚ) =
      ∑ w ∈ nodes, (tightCount ways d v w : ℚ) * (tight ways d w t).ncard := by
    intro t ht
    rw [(h.count_eq_first t v hv).2, if_neg (Finset.ne_of_mem_erase ht).symm]
    push_cast
    exact zero_add _
  have hshare : ∀ w ∈ nodes, (tightCount ways d v w : ℚ) *
      ((tight ways d source v).ncard / ((tight ways d source w).ncard : ℚ) *
        (1 + dependencyOn ways d source nodes w)) =
      ∑ t ∈ nodes.erase v, (tight ways d source v).ncard *
        (tightCount ways d v w * (tight ways d w t).ncard) / ((tight ways d source t).ncard : ℚ) := by
    intro w hw
    by_cases hcount : tightCount ways d v w = 0
    · simp [hcount]
    · -- no tight path leads back to `v`
      have hback : (tight ways d w v).ncard = 0 := by
        rw [h.tight_eq_empty (h.lt_of_tightCount_ne_zero hcount), Set.ncard_empty]
      have hpositive : ((tight ways d source w).ncard : ℚ) ≠ 0 := by
        exact_mod_cast (h.ncard_pos hw).ne'
      rw [h.one_add_dependencyOn hw, ← Finset.add_sum_erase _ _ hv, hback, Nat.cast_zero, zero_div, zero_add,
        ← mul_assoc (_ / _), div_mul_cancel₀ _ hpositive, Finset.mul_sum, Finset.mul_sum]
      refine Finset.sum_congr rfl fun t _ => ?_
      ring
  rw [Finset.sum_congr rfl hshare, Finset.sum_comm, dependencyOn]
  refine Finset.sum_congr rfl fun t ht => ?_
  rw [hfirst t ht, Finset.mul_sum, Finset.sum_div]

/-- The dependency on a node is the share of shortest paths through it, over the nodes that can be
reached. -/
theorem sum_shortestThrough (h : Distances ways source nodes d) (hv : v ≠ source) :
    ∑ t ∈ nodes.filter fun t => t ≠ source ∧ t ≠ v,
        ((ways.shortestThrough source t v).ncard : ℚ) / (ways.shortest source t).ncard =
      if v ∈ nodes then dependencyOn ways d source nodes v else 0 := by
  by_cases hmem : v ∈ nodes
  · rw [if_pos hmem, dependencyOn]
    have hterm : ∀ t ∈ nodes.filter fun t => t ≠ source ∧ t ≠ v,
        ((ways.shortestThrough source t v).ncard : ℚ) / (ways.shortest source t).ncard =
          (tight ways d source v).ncard * (tight ways d v t).ncard / ((tight ways d source t).ncard : ℚ) := by
      intro t ht
      have ht := (Finset.mem_filter.mp ht).1
      rw [h.ncard_shortestThrough ht, h.shortest_eq ht, Nat.cast_mul]
    rw [Finset.sum_congr rfl hterm]
    refine Finset.sum_subset (fun t ht => ?_) fun t ht hnot => ?_
    · obtain ⟨ht, -, hne⟩ := Finset.mem_filter.mp ht
      exact Finset.mem_erase.mpr ⟨hne, ht⟩
    · -- the source itself: no shortest path from another node leads back to it
      obtain ⟨hne, ht⟩ := Finset.mem_erase.mp ht
      obtain rfl : t = source := by
        by_contra hsource
        exact hnot (Finset.mem_filter.mpr ⟨ht, hsource, hne⟩)
      rw [h.tight_eq_empty (h.source_lt hmem hv), Set.ncard_empty, Nat.cast_zero, mul_zero, zero_div]
  · rw [if_neg hmem]
    refine Finset.sum_eq_zero fun t _ => ?_
    rw [h.shortestThrough_eq_empty hmem, Set.ncard_empty, Nat.cast_zero, zero_div]

end Distances

end PackedGraph
