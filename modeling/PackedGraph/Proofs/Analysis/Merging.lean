import PackedGraph.Proofs.Analysis.Columns

/-!
# Merging selections

A selection that is merged into another has already dropped entries and brought the rest in order.  Neither
shows afterwards: the other one keeps what it would have kept if it had been offered everything itself, ties
included, as long as the merged selection looks for the same end of the scores and keeps at least as many.

Main statements: `best_append_best`, `Columns.merge_offerAll` and `merging_replays_offers`.
-/

namespace PackedGraph

variable {bound bound' : Bound} {offered : List ScoredPair}

/-! ## The best of what was offered -/

/-- The best entries of those offered: the front of a stable sort of all that are numbers. -/
def best (bound : Bound) (offered : List ScoredPair) : List ScoredPair :=
  ((offered.filter fun e => !e.score.isNaN).mergeSort (ScoredPair.noWorse bound.largest)).take bound.capacity

theorem isNaN_of_mem_best {e : ScoredPair} (h : e ∈ best bound offered) : e.score.isNaN = false := by
  simpa using (List.mem_filter.mp (List.mem_mergeSort.mp (List.mem_of_mem_take h))).2

/-- Numbers are sorted by the places of their keys, which are in a linear order. -/
theorem mergeSort_noWorse_eq {xs : List ScoredPair} (hnumbers : ∀ e ∈ xs, e.score.isNaN = false) :
    xs.mergeSort (ScoredPair.noWorse bound.largest) =
      xs.mergeSort fun a b => decide (Selection.keyPlace bound (a, 0) ≤ Selection.keyPlace bound (b, 0)) :=
  mergeSort_congr fun a ha b hb =>
    Selection.noWorse_eq_keyPlace (d := (a, 0)) (e := (b, 0)) (hnumbers a ha) (hnumbers b hb)

/-- What was not among the best of the later offers is not among the best of all. -/
theorem best_append_best (hlargest : bound'.largest = bound.largest) (hcapacity : bound.capacity ≤ bound'.capacity)
    (earlier later : List ScoredPair) : best bound (earlier ++ best bound' later) = best bound (earlier ++ later) := by
  have hbest : (best bound' later).filter (fun e => !e.score.isNaN) = best bound' later :=
    List.filter_eq_self.mpr fun e he => by rw [isNaN_of_mem_best he, Bool.not_false]
  have hnumbers : ∀ xs : List ScoredPair, ∀ e ∈ xs.filter fun e => !e.score.isNaN, e.score.isNaN = false :=
    fun xs e he => by simpa using (List.mem_filter.mp he).2
  have hmixed : ∀ e ∈ (earlier.filter fun e => !e.score.isNaN) ++ best bound' later, e.score.isNaN = false :=
    fun e he => (List.mem_append.mp he).elim (hnumbers earlier e) isNaN_of_mem_best
  rw [best, List.filter_append, hbest, mergeSort_noWorse_eq hmixed, best, hlargest,
    mergeSort_noWorse_eq (hnumbers later), best, mergeSort_noWorse_eq (hnumbers _), List.filter_append]
  exact take_mergeSort_append (fun a b c => Selection.keyPlace_trans bound (a, 0) (b, 0) (c, 0))
    (fun a b => Selection.keyPlace_total bound (a, 0) (b, 0)) _ _ hcapacity

/-! ## Selections -/

namespace Selection

/-- A selection is known by the best of what was offered. -/
theorem offerAll_eq_best (bound : Bound) (offered : List ScoredPair) :
    (new bound).offerAll offered = ⟨bound, (best bound offered).map (new bound).key⟩ := by
  rw [offerAll_eq_ranking, best, ← ranking_map_fst, List.map_take, List.map_map, keyedRanking]
  rfl

theorem entries_offerAll_eq_best (bound : Bound) (offered : List ScoredPair) :
    ((new bound).offerAll offered).entries = best bound offered := by
  rw [entries_offerAll_eq, best, ← ranking_map_fst, List.map_take]

/-- Merging a selection is offering again whatever was offered to it. -/
theorem merge_offerAll (hlargest : bound'.largest = bound.largest) (hcapacity : bound.capacity ≤ bound'.capacity)
    (earlier later : List ScoredPair) :
    ((new bound).offerAll earlier).merge ((new bound').offerAll later) =
      (new bound).offerAll (earlier ++ later) := by
  rw [merge, entries_offerAll_eq_best, ← offerAll_append, offerAll_eq_best, offerAll_eq_best,
    best_append_best hlargest hcapacity]

end Selection

/-! ## Columns -/

namespace Columns

theorem entries_offerAll (bound : Bound) (offered : List ScoredPair) :
    ((new bound).offerAll offered).entries = best bound offered := by
  rw [Selection.columns_offerAll, Selection.columns_entries, Selection.entries_offerAll_eq_best]

/-- Merging columns is offering again whatever was offered to them: not even the columns tell. -/
theorem merge_offerAll (hlargest : bound'.largest = bound.largest) (hcapacity : bound.capacity ≤ bound'.capacity)
    (earlier later : List ScoredPair) :
    ((new bound).offerAll earlier).merge ((new bound').offerAll later) = (new bound).offerAll (earlier ++ later) := by
  rw [Selection.columns_merge, Selection.merge_offerAll hlargest hcapacity, ← Selection.columns_offerAll]

/-- Merge columns to which something was offered, one after the other. -/
def mergeAll (c : Columns) (parts : List (Bound × List ScoredPair)) : Columns :=
  parts.foldl (fun c part => c.merge ((new part.1).offerAll part.2)) c

/-- Merging in order is offering again in order. -/
theorem mergeAll_offerAll (bound : Bound) (offered : List ScoredPair) {parts : List (Bound × List ScoredPair)}
    (h : ∀ part ∈ parts, part.1.largest = bound.largest ∧ bound.capacity ≤ part.1.capacity) :
    ((new bound).offerAll offered).mergeAll parts =
      (new bound).offerAll (offered ++ parts.flatMap fun part => part.2) := by
  induction parts generalizing offered with
  | nil => rw [List.flatMap_nil, List.append_nil]; rfl
  | cons part parts ih =>
    rw [List.forall_mem_cons] at h
    rw [List.flatMap_cons, ← List.append_assoc, ← ih _ h.2, ← merge_offerAll h.1.1 h.1.2]
    rfl

end Columns

/-- Merging selections is replaying their offers.

A selection into which another one is merged, of the same kind and with at least as much room, ends as if it
had been offered everything itself, in every column.  So merging any number of selections in some order makes
the truncated stable sort of all their offers in that order. -/
theorem merging_replays_offers (bound : Bound) (offered : List ScoredPair) :
    (∀ (bound' : Bound) (later : List ScoredPair), bound'.largest = bound.largest →
      bound.capacity ≤ bound'.capacity →
      ((Columns.new bound).offerAll offered).merge ((Columns.new bound').offerAll later) =
        (Columns.new bound).offerAll (offered ++ later)) ∧
    ∀ parts : List (Bound × List ScoredPair),
      (∀ part ∈ parts, part.1.largest = bound.largest ∧ bound.capacity ≤ part.1.capacity) →
      ((Columns.new bound).offerAll offered).mergeAll parts =
        (Columns.new bound).offerAll (offered ++ parts.flatMap fun part => part.2) ∧
      (((Columns.new bound).offerAll offered).mergeAll parts).entries =
        (((offered ++ parts.flatMap fun part => part.2).filter fun e => !e.score.isNaN).mergeSort
          (ScoredPair.noWorse bound.largest)).take bound.capacity := by
  refine ⟨fun bound' later hlargest hcapacity => Columns.merge_offerAll hlargest hcapacity offered later,
    fun parts h => ?_⟩
  have hmerged := Columns.mergeAll_offerAll bound offered h
  refine ⟨hmerged, ?_⟩
  rw [hmerged, Columns.entries_offerAll]
  rfl

/-- Pairs offered to a selection of two, most of them ties. -/
def ownOffers : List ScoredPair := [⟨1, 0, 1⟩, ⟨2, 0, 1⟩, ⟨3, 0, 1⟩]

/-- What two other selections were offered: both drop pairs, and the first one brings the rest in order. -/
def otherOffers : List (Bound × List ScoredPair) :=
  [(⟨3, true⟩, [⟨4, 0, 1⟩, ⟨5, 0, 2⟩, ⟨6, 0, 1⟩, ⟨7, 0, 1⟩]), (⟨2, true⟩, [⟨8, 0, 0⟩, ⟨9, 0, 1⟩, ⟨10, 0, 2⟩])]

/-- Of pairs with equal scores those that were offered first are kept, as if all had been offered to one. -/
theorem merging_replays_ties :
    (∀ part ∈ otherOffers, part.1.largest = true ∧ 2 ≤ part.1.capacity) ∧
    (((Columns.new ⟨2, true⟩).offerAll ownOffers).merge
      ((Columns.new ⟨3, true⟩).offerAll [⟨4, 0, 1⟩, ⟨5, 0, 2⟩, ⟨6, 0, 1⟩, ⟨7, 0, 1⟩])).firsts = [5, 1] ∧
    (((Columns.new ⟨2, true⟩).offerAll ownOffers).mergeAll otherOffers).firsts = [5, 10] ∧
    (((Columns.new ⟨2, true⟩).offerAll ownOffers).mergeAll otherOffers).entries =
      (((ownOffers ++ otherOffers.flatMap fun part => part.2).filter fun e => !e.score.isNaN).mergeSort
        (ScoredPair.noWorse true)).take 2 := by
  obtain ⟨hpair, hparts⟩ := merging_replays_offers ⟨2, true⟩ ownOffers
  have hroom : ∀ part ∈ otherOffers, part.1.largest = true ∧ 2 ≤ part.1.capacity := by
    simp [otherOffers]
  obtain ⟨hmerged, hentries⟩ := hparts otherOffers hroom
  refine ⟨hroom, ?_, ?_, hentries⟩
  · rw [hpair ⟨3, true⟩ _ rfl (by decide)]
    decide +kernel
  · rw [hmerged]
    decide +kernel

end PackedGraph
