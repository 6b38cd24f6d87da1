import PackedGraph.Proofs.Graph.Parallel

/-!
# All traversals of a graph agree

Whoever is shown the relationships of a node one by one sees a list from its beginning up to the first
relationship after which it has seen enough.  For a traversal by ascending targets the list is
`Graph.targets`, for one with weights it is `Graph.weighted`, which goes type by type; one is a
rearrangement of the other, and both have as many entries as the degree of the node says.

Main statements: `Cursor.visit_of_shows`, `Visitor.sees_showAll` and `traversals_agree`.
-/

namespace PackedGraph

variable {α β σ : Type}

/-! ## What a visitor sees of a list -/

namespace Visitor

/-- Show a list until the visitor has seen enough; whether it wants to see more. -/
def showAll (visitor : Visitor α σ) : List α → σ → Bool × σ
  | [], s => (true, s)
  | x :: rest, s =>
    match visitor s x with
    | (false, s) => (false, s)
    | (true, s) => showAll visitor rest s

/-- Whether a visitor that has been shown so many entries of a list wants to see more after the next one. -/
def GoesOn (visitor : Visitor α σ) (s : σ) (all : List α) (place : Nat) : Prop :=
  ∀ x ∈ all[place]?, (visitor (visitor.after s (all.take place)) x).1 = true

/-- What a visitor makes of a list that it is shown until it has seen enough. -/
structure Sees (visitor : Visitor α σ) (s : σ) (all : List α) (made : σ) : Prop where
  /-- A visitor that always wants to see more sees the whole list. -/
  whole : (∀ place, visitor.GoesOn s all place) → made = visitor.after s all
  /-- One that has enough after some entry, and not before, sees the list up to and including it. -/
  upTo : ∀ place < all.length, (∀ earlier < place, visitor.GoesOn s all earlier) →
    ¬ visitor.GoesOn s all place → made = visitor.after s (all.take (place + 1))

variable {visitor : Visitor α σ}

theorem showAll_cons (x : α) (rest : List α) (s : σ) : visitor.showAll (x :: rest) s =
    if (visitor s x).1 then visitor.showAll rest (visitor s x).2 else (false, (visitor s x).2) := by
  rw [showAll]
  obtain ⟨goesOn, made⟩ := visitor s x
  cases goesOn <;> rfl

/-- The second of two lists is shown to a visitor that has not seen enough of the first. -/
theorem showAll_append (xs ys : List α) (s : σ) : visitor.showAll (xs ++ ys) s =
    if (visitor.showAll xs s).1 then visitor.showAll ys (visitor.showAll xs s).2
    else visitor.showAll xs s := by
  induction xs generalizing s with
  | nil => rfl
  | cons x xs ih =>
    rw [List.cons_append, showAll_cons, showAll_cons]
    split
    · exact ih _
    · rfl

theorem showAll_map (f : β → α) (xs : List β) (s : σ) :
    visitor.showAll (xs.map f) s = showAll (fun s x => visitor s (f x)) xs s := by
  induction xs generalizing s with
  | nil => rfl
  | cons x xs ih =>
    rw [List.map_cons, showAll_cons, showAll_cons]
    simp only [ih]

theorem goesOn_zero {x : α} {rest : List α} {s : σ} :
    visitor.GoesOn s (x :: rest) 0 ↔ (visitor s x).1 = true := by
  simp [GoesOn, after]

theorem goesOn_succ {x : α} {rest : List α} {s : σ} {place : Nat} :
    visitor.GoesOn s (x :: rest) (place + 1) ↔ visitor.GoesOn (visitor s x).2 rest place := by
  simp [GoesOn, after]

/-- A visitor sees the list up to the first entry after which it has seen enough. -/
theorem sees_showAll (all : List α) (s : σ) : visitor.Sees s all (visitor.showAll all s).2 := by
  induction all generalizing s with
  | nil => exact ⟨fun _ => rfl, fun place hplace => absurd hplace (Nat.not_lt_zero _)⟩
  | cons x rest ih =>
    obtain ⟨hwhole, hupTo⟩ := ih (visitor s x).2
    rw [showAll_cons]
    constructor
    case whole =>
      intro hgoesOn
      rw [if_pos (goesOn_zero.mp (hgoesOn 0))]
      exact hwhole fun place => goesOn_succ.mp (hgoesOn (place + 1))
    case upTo =>
      intro place hplace hearlier hstop
      cases place with
      | zero =>
        rw [if_neg (goesOn_zero.not.mp hstop)]
        rfl
      | succ place =>
        rw [if_pos (goesOn_zero.mp (hearlier 0 (Nat.succ_pos _)))]
        refine hupTo place (Nat.lt_of_succ_lt_succ hplace) (fun earlier hlt => ?_) (goesOn_succ.not.mp hstop)
        exact goesOn_succ.mp (hearlier (earlier + 1) (Nat.succ_lt_succ hlt))

/-- A visitor that notes what it is shown, and says by the number of what it has seen before whether it
wants to see more. -/
def noting (goOn : Nat → Bool) : Visitor α (List α) := fun noted x => (goOn noted.length, noted ++ [x])

theorem after_noting (goOn : Nat → Bool) (noted shown : List α) :
    (noting goOn).after noted shown = noted ++ shown := by
  induction shown generalizing noted with
  | nil => exact (List.append_nil noted).symm
  | cons x shown ih => exact (ih (noted ++ [x])).trans (List.append_cons noted x shown).symm

theorem goesOn_noting (goOn : Nat → Bool) (all : List α) (place : Nat) :
    (noting goOn).GoesOn [] all place ↔ (place < all.length → goOn place = true) := by
  simp only [GoesOn, after_noting, List.nil_append]
  by_cases hplace : place < all.length
  · simp [hplace, noting, Nat.min_eq_left (Nat.le_of_lt hplace)]
  · simp [hplace]

/-- What a visitor notes is the part of the list that it has seen. -/
theorem showAll_noting (goOn : Nat → Bool) (all : List α) :
    ((noting goOn).showAll all []).2 = Graph.seenWhile goOn all := by
  obtain ⟨hwhole, hupTo⟩ : (noting goOn).Sees [] all ((noting goOn).showAll all []).2 := sees_showAll all []
  simp only [goesOn_noting, after_noting, List.nil_append] at hwhole hupTo
  rw [Graph.seenWhile]
  cases hstop : (List.range all.length).find? fun place => !goOn place with
  | none =>
    refine hwhole fun place hplace => ?_
    simpa using List.find?_eq_none.mp hstop place (List.mem_range.mpr hplace)
  | some last =>
    rw [List.find?_range_eq_some] at hstop
    obtain ⟨hlast, hmem, hearlier⟩ := hstop
    have hlast : goOn last = false := by simpa using hlast
    refine hupTo last (List.mem_range.mp hmem) (fun earlier hlt _ => ?_) (by simp [hlast, List.mem_range.mp hmem])
    simpa using hearlier earlier hlt

end Visitor

/-! ## Cursors -/

namespace Cursor

theorem visitFrom_succ (visitor : Visitor (Nat × Nat) σ) (steps place : Nat) (c : Cursor) (s : σ) :
    visitFrom visitor (steps + 1) place c s =
      match c.next.1 with
      | none => (true, s)
      | some target =>
        if (visitor s (target, place)).1 then
          visitFrom visitor steps (place + 1) c.next.2 (visitor s (target, place)).2
        else (false, (visitor s (target, place)).2) := by
  rw [visitFrom]
  obtain ⟨found, left⟩ := c.next
  cases found with
  | none => rfl
  | some target =>
    simp only
    obtain ⟨goesOn, made⟩ := visitor s (target, place)
    cases goesOn <;> rfl

theorem visitFrom_of_shows (visitor : Visitor (Nat × Nat) σ) {steps : Nat} :
    ∀ {rest : List Nat} {c : Cursor} (place : Nat) (s : σ), c.Shows rest → rest.length ≤ steps →
      visitFrom visitor steps place c s =
        visitor.showAll (rest.zipIdx place) s := by
  induction steps with
  | zero =>
    intro rest c place s _ hsteps
    obtain rfl := List.length_eq_zero_iff.mp (Nat.le_zero.mp hsteps)
    rfl
  | succ steps ih =>
    intro rest c place s h hsteps
    obtain ⟨hnext, hshows⟩ := next_of_shows h
    rw [visitFrom_succ, hnext]
    cases rest with
    | nil => rfl
    | cons target rest =>
      have hrest := fun made => ih (place + 1) made hshows (Nat.le_of_succ_le_succ hsteps)
      rw [List.tail_cons] at hrest
      simp only [List.zipIdx_cons, Visitor.showAll_cons, List.head?_cons, hrest]

/-- A visitor is shown what the cursor shows, each target with its place. -/
theorem visit_of_shows (visitor : Visitor (Nat × Nat) σ) {c : Cursor} {rest : List Nat} (h : c.Shows rest)
    (s : σ) : c.visit visitor s = visitor.showAll rest.zipIdx s :=
  visitFrom_of_shows visitor 0 s h (remaining_of_shows h).ge

end Cursor

/-! ## One type -/

namespace Relationships

variable {r : Relationships}

/-- Every target comes with the weight at its place. -/
theorem weighted_eq (r : Relationships) (node : Nat) (fallback : Float) : r.weighted node fallback =
    (r.targets node).zipIdx.map fun (target, place) => (target, r.weightAt node fallback place) := by
  rw [weighted]
  unfold weightAt
  cases r.weights with
  | none =>
    conv_lhs => rw [← List.zipIdx_map_fst 0 (r.targets node), List.map_map]
    rfl
  | some weights => rfl

/-- A target of relationships with weights comes with the weight that is stored at its place. -/
theorem getElem?_weighted {weights : Weights} (hweights : r.weights = some weights) (node : Nat)
    (fallback : Float) (place : Nat) : (r.weighted node fallback)[place]? =
      (r.targets node)[place]?.map fun target => (target, (weights.get? node place).getD fallback) := by
  rw [weighted, hweights]
  simp [Option.map_map, Function.comp_def]

/-- A cursor over one type shows the targets of the node it is bound to. -/
theorem Built.shows_rebind (h : r.Built) (node : Nat) :
    ((Cursor.unbound [r.adjacency]).rebind node).Shows (r.targets node) := by
  obtain ⟨rows, hsound⟩ := h.exists_sound
  have hreads : (Cursor.unbound [r.adjacency]).Reads [rows] := .cons hsound.holds .nil
  have hshows := Cursor.shows_rebind hreads node
  rwa [mergedRow_singleton hsound.holds.ascending, ← targets_of_holds hsound.holds] at hshows

/-- Where weights are stored, there is one for every target. -/
theorem Built.exists_weight (h : r.Built) {weights : Weights} (hweights : r.weights = some weights)
    {node place : Nat} (hplace : place < (r.targets node).length) :
    ∃ weight, weights.get? node place = some weight := by
  obtain ⟨rows, hsound⟩ := h.exists_sound
  obtain ⟨nodes, s, batches, calls, hnodes, hcalls, hbuild⟩ := h
  obtain ⟨all, stored, hrepresents, rfl, hlength, hstored⟩ := Intake.rows_of_calls hnodes hcalls hbuild
  have hnode : node < nodes.nodeCount := by
    by_contra hbeyond
    rw [targets_of_le hrepresents.holds (by rw [List.length_map]; omega)] at hplace
    exact absurd hplace (Nat.not_lt_zero _)
  obtain ⟨row, hrow, -, hwords⟩ := hstored node hnode
  rw [hrepresents.targets_eq hrow hwords, List.length_map] at hplace
  obtain rfl : Weights.ofDegrees all.weights all.degrees = weights := by
    rw [PackedNodes.relationships] at hweights
    split at hweights
    · exact Option.some.inj hweights
    · exact absurd hweights nofun
  exact ⟨_, hrepresents.weight_eq hrow hplace⟩

end Relationships

/-! ## All types -/

namespace Graph

variable {g : Graph}

/-- The relationships of a node, by ascending targets. -/
def relationshipsOf (g : Graph) (node : Nat) : List (Nat × Nat) :=
  (g.targets node).map fun target => (node, target)

/-- The relationships of a node with their weights, type by type. -/
def weightedOf (g : Graph) (node : Nat) (fallback : Float) : List (Nat × Nat × Float) :=
  (g.weighted node fallback).map fun (target, weight) => (node, target, weight)

/-- A visitor is shown the relationships of a node by ascending targets. -/
theorem Built.visit_eq (hg : g.Built) (node : Nat) (visitor : Visitor (Nat × Nat) σ) (s : σ) :
    g.visit node visitor s = (visitor.showAll (g.relationshipsOf node) s).2 := by
  have hshows : (g.cursor node).Shows (g.targets node) := hg.shows_rebind rfl node
  rw [visit, Cursor.visit_of_shows _ hshows, relationshipsOf, Visitor.showAll_map]
  conv_rhs => rw [← List.zipIdx_map_fst 0 (g.targets node), Visitor.showAll_map]

/-- A visitor is shown the relationships of some types, one type after the other. -/
theorem visitTypes_eq {types : List NamedType} (htypes : ∀ type ∈ types, type.relationships.Built)
    (node : Nat) (fallback : Float) (visitor : Visitor (Nat × Nat × Float) σ) (s : σ) :
    visitTypes node fallback visitor types s =
      (visitor.showAll ((types.flatMap fun type => type.relationships.weighted node fallback).map
        fun (target, weight) => (node, target, weight)) s).2 := by
  induction types generalizing s with
  | nil => rfl
  | cons type later ih =>
    simp only [List.mem_cons, forall_eq_or_imp] at htypes
    rw [visitTypes, Cursor.visit_of_shows _ (htypes.1.shows_rebind node), List.flatMap_cons, List.map_append,
      Visitor.showAll_append, Relationships.weighted_eq, List.map_map, Visitor.showAll_map]
    simp only [Function.comp_def]
    -- the later types are shown only if the first was not enough
    generalize Visitor.showAll _ (type.relationships.targets node).zipIdx s = first
    obtain ⟨goesOn, made⟩ := first
    cases goesOn with
    | false => rfl
    | true => exact ih htypes.2 made

theorem Built.visitWeighted_eq (hg : g.Built) (node : Nat) (fallback : Float)
    (visitor : Visitor (Nat × Nat × Float) σ) (s : σ) :
    g.visitWeighted node fallback visitor s = (visitor.showAll (g.weightedOf node fallback) s).2 :=
  visitTypes_eq (fun _ htype => hg.built_of_mem htype) node fallback visitor s

/-- The size of a cursor is the number of targets that it shows at first. -/
theorem Built.degree_cursor (hg : g.Built) (node : Nat) : (g.cursor node).degree = g.degree node := by
  obtain ⟨⟨all, hall⟩, -⟩ := hg.exists_rows
  have hreads : g.rawCursor.Reads all := by
    rw [Cursor.Reads, rawCursor, sources_cursorOver, List.forall₂_map_left_iff]
    exact hall.imp fun type rows hsound => hsound.1.holds
  have htargets : g.targets node = mergedRow all node :=
    Cursor.toList_of_shows (Cursor.shows_rebind hreads node)
  rw [hg.degree_eq, htargets, Cursor.length_mergedRow, cursor, Cursor.degree_eq, Cursor.degrees_rebind hreads]

/-- Whichever way the relationships of a node are read, they are the same. -/
structure TraversalsAgree (g : Graph) (node : Nat) (fallback : Float) : Prop where
  /-- The targets ascend. -/
  ascending : (g.targets node).Pairwise (· ≤ ·)
  /-- The targets that are read with their weights, type by type, are the same in another order. -/
  perm : ((g.weighted node fallback).map Prod.fst).Perm (g.targets node)
  /-- A target of a type with weights comes with the weight that is stored at its place. -/
  stored : ∀ type ∈ g.types, ∀ weights, type.relationships.weights = some weights →
    ∀ (place : Nat) (h : place < (type.relationships.targets node).length),
      ∃ weight, weights.get? node place = some weight ∧
        (type.relationships.weighted node fallback)[place]? =
          some ((type.relationships.targets node)[place], weight)
  /-- A target of a type without weights comes with the fallback. -/
  unweighted : ∀ type ∈ g.types, type.relationships.weights = none →
    type.relationships.weighted node fallback = (type.relationships.targets node).map (·, fallback)
  /-- The size of a cursor is the degree. -/
  degree_cursor : (g.cursor node).degree = g.degree node
  /-- There are as many relationships as the degree says, in either order. -/
  lengths : (g.relationshipsOf node).length = g.degree node ∧
    (g.weightedOf node fallback).length = g.degree node
  /-- A visitor sees the relationships by ascending targets until it has seen enough. -/
  visit : ∀ {σ : Type} (visitor : Visitor (Nat × Nat) σ) (s : σ),
    visitor.Sees s (g.relationshipsOf node) (g.visit node visitor s)
  /-- And type by type with their weights, until it has seen enough. -/
  visitWeighted : ∀ {σ : Type} (visitor : Visitor (Nat × Nat × Float) σ) (s : σ),
    visitor.Sees s (g.weightedOf node fallback) (g.visitWeighted node fallback visitor s)
  /-- What a visitor notes is the part of the relationships that it has seen. -/
  noted : ∀ goOn : Nat → Bool,
    g.visit node (Visitor.noting goOn) [] = seenWhile goOn (g.relationshipsOf node) ∧
      g.visitWeighted node fallback (Visitor.noting goOn) [] = seenWhile goOn (g.weightedOf node fallback)

end Graph

/-- **All traversals agree.**  For every graph that can be built, of any number of types with and without
weights, and for every node: the targets in ascending order are a rearrangement of those that come type by
type with their weights, each with the weight stored at its place or with the fallback; there are as many as
the degree and the size of a cursor say; and whatever a visitor does, it sees either list up to the first
relationship after which it has seen enough, and all of it otherwise.  The degrees of all nodes add up to
the number of relationships. -/
theorem traversals_agree {g : Graph} (hg : g.Built) :
    (∀ (node : Nat) (fallback : Float), g.TraversalsAgree node fallback) ∧
      (g.nodeList.map g.degree).sum = g.relationshipCount := by
  constructor
  · intro node fallback
    have hlength : (g.weighted node fallback).length = g.degree node := by
      rw [hg.degree_eq, ← (hg.perm_weighted node fallback).length_eq, List.length_map]
    constructor
    case ascending => exact hg.ascending node
    case perm => exact hg.perm_weighted node fallback
    case stored =>
      intro type htype weights hweights place hplace
      obtain ⟨weight, hstored⟩ := (hg.built_of_mem htype).exists_weight hweights hplace
      refine ⟨weight, hstored, ?_⟩
      rw [Relationships.getElem?_weighted hweights, List.getElem?_eq_getElem hplace, hstored]
      rfl
    case unweighted =>
      intro type _ hweights
      rw [Relationships.weighted, hweights]
    case degree_cursor => exact hg.degree_cursor node
    case lengths =>
      rw [Graph.relationshipsOf, Graph.weightedOf, List.length_map, List.length_map]
      exact ⟨(hg.degree_eq node).symm, hlength⟩
    case visit =>
      intro σ visitor s
      rw [hg.visit_eq]
      exact Visitor.sees_showAll _ s
    case visitWeighted =>
      intro σ visitor s
      rw [hg.visitWeighted_eq]
      exact Visitor.sees_showAll _ s
    case noted =>
      intro goOn
      rw [hg.visit_eq, hg.visitWeighted_eq]
      exact ⟨Visitor.showAll_noting goOn _, Visitor.showAll_noting goOn _⟩
  · rw [hg.relationshipCount_eq]
    exact congrArg List.sum (List.map_congr_left fun node _ => hg.degree_eq node)

/-- A type with two parallel relationships and their weights, and a type without weights: a visitor that
notes what it sees and has enough after two relationships. -/
theorem seen_up_to_the_second : ∃ g : Graph, g.Built ∧ g.types.length = 2 ∧ g.degree 0 = 4 ∧
    g.visit 0 (Visitor.noting fun before => decide (before < 1)) [] = [(0, 1), (0, 1)] ∧
    (g.nodeList.map g.degree).sum = g.relationshipCount := by
  have hnodes : (IdMap.identity 3).Valid := IdMap.valid_identity (by decide)
  obtain ⟨heavy, hheavy, hcovers, -, -, hcounts⟩ := @Graph.exists_built_type (.identity 3)
    { weighted := true, concurrency := 2 } 0 [.add 0 1 (some 5), .add 0 1 (some 7)] hnodes (by decide)
    (by decide) (by decide)
  obtain ⟨plain, hplain, hcovers', -, -, hcounts'⟩ := @Graph.exists_built_type (.identity 3)
    { concurrency := 1 } 0 [.add 0 2 none, .add 0 1 none] hnodes (by decide) (by decide) (by decide)
  have hg := @Graph.built_ofTypes (.identity 3) [⟨"heavy", heavy⟩, ⟨"plain", plain⟩]
    (by simp [hheavy, hplain]) (by simp [hcovers, hcovers']) (by simp)
  obtain ⟨hagree, hsum⟩ := traversals_agree hg
  generalize hparts : (⟨.identity 3, [⟨"heavy", heavy⟩, ⟨"plain", plain⟩], [], _⟩ : Graph) = g at hg hagree hsum
  have htypes : g.types = [⟨"heavy", heavy⟩, ⟨"plain", plain⟩] := hparts ▸ rfl
  have hcount : g.nodeCount = 3 := hparts ▸ (by decide : (IdMap.identity 3).nodeCount = 3)
  have htargets : g.targets 0 = [1, 1, 1, 2] := by
    refine List.Perm.eq_of_pairwise (fun a b _ _ => Nat.le_antisymm) (hg.ascending 0) (by decide) ?_
    rw [List.perm_iff_count]
    intro target
    by_cases hlt : target < 3
    · rw [hg.count_targets, htypes, List.flatMap_cons, List.flatMap_singleton, List.count_append]
      change (heavy.targets 0).count target + (plain.targets 0).count target = _
      rw [hcounts 0 (by decide), hcounts' 0 (by decide)]
      revert hlt target
      decide
    · rw [List.count_eq_zero.mpr fun hmem => hlt (hcount ▸ hg.target_lt hmem)]
      have hbound : ∀ target ∈ [1, 1, 1, 2], target < 3 := by decide
      exact (List.count_eq_zero.mpr fun hmem => hlt (hbound target hmem)).symm
  refine ⟨g, hg, by rw [htypes]; rfl, by rw [hg.degree_eq, htargets]; rfl, ?_, hsum⟩
  rw [((hagree 0 1).noted _).1, Graph.relationshipsOf, htargets]
  decide

end PackedGraph
