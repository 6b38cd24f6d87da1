import PackedGraph.Proofs.Analysis.Selection
import PackedGraph.Proofs.Numeric.Negation

/-!
# A selection is a truncated stable sort

All entries that were offered and are numbers, each with the number of its offer, are sorted stably by their
scores: that is the ranking.  Sorting one more entry into it is the same insertion that a selection makes, so
a selection always holds the front of the ranking, infinities and both zeros included.

Main statements: `Selection.ranking_concat`, `Selection.ranking_ordered` and `Selection.offerAll_eq_ranking`.
-/

namespace PackedGraph

/-! ## The ranking of everything offered -/

/-- Whether a score is as good as another, in a selection of the largest or of the smallest. -/
def ScoredPair.noWorse (largest : Bool) (a b : ScoredPair) : Bool :=
  if largest then decide (b.score ≤ a.score) else decide (a.score ≤ b.score)

/-- The entries that have been offered and are numbers, best first, with the numbers of their offers; of equal
scores the one offered first comes first. -/
def ranking (largest : Bool) (offered : List ScoredPair) : List (ScoredPair × Nat) :=
  (offered.zipIdx.filter fun e => !e.1.score.isNaN).mergeSort fun a b => ScoredPair.noWorse largest a.1 b.1

variable {entry : ScoredPair} {offered : List ScoredPair} {largest : Bool}

theorem mem_ranking {e : ScoredPair × Nat} :
    e ∈ ranking largest offered ↔ offered[e.2]? = some e.1 ∧ e.1.score.isNaN = false := by
  rw [ranking, List.mem_mergeSort, List.mem_filter, List.mem_zipIdx_iff_getElem?, Bool.not_eq_true']

/-- The ranking without the numbers of the offers is a stable sort of the offers that are numbers. -/
theorem ranking_map_fst (largest : Bool) (offered : List ScoredPair) :
    (ranking largest offered).map Prod.fst =
      (offered.filter fun e => !e.score.isNaN).mergeSort (ScoredPair.noWorse largest) := by
  have hfilter : (offered.zipIdx.filter fun e => !e.1.score.isNaN).map Prod.fst =
      offered.filter fun e => !e.score.isNaN := by
    conv_rhs => rw [← List.zipIdx_map_fst 0 offered, List.filter_map]
    rfl
  rw [ranking, List.map_mergeSort (s := ScoredPair.noWorse largest) fun _ _ _ _ => rfl, hfilter]

theorem ranking_nil (largest : Bool) : ranking largest [] = [] := by simp [ranking]

theorem filter_zipIdx_concat (entry : ScoredPair) (offered : List ScoredPair) :
    ((offered ++ [entry]).zipIdx.filter fun e => !e.1.score.isNaN) =
      (offered.zipIdx.filter fun e => !e.1.score.isNaN) ++
        if entry.score.isNaN then [] else [(entry, offered.length)] := by
  rw [List.zipIdx_append, List.filter_append, Nat.zero_add, List.zipIdx_singleton]
  congr 1
  cases h : entry.score.isNaN with
  | true => rw [List.filter_cons_of_neg (by simp only [h]; decide), List.filter_nil, if_pos rfl]
  | false => rw [List.filter_cons_of_pos (by simp only [h]; decide), List.filter_nil, if_neg Bool.false_ne_true]

/-- What is no number does not take part. -/
theorem ranking_concat_of_isNaN (h : entry.score.isNaN = true) :
    ranking largest (offered ++ [entry]) = ranking largest offered := by
  rw [ranking, filter_zipIdx_concat, h, if_pos rfl, List.append_nil, ranking]

namespace Selection

variable {bound : Bound} {a b : ScoredPair}

theorem key_score_isNaN (s : Selection) (h : a.score.isNaN = false) : (s.key a).score.isNaN = false := by
  rcases s.sign_cases with ⟨-, hsign⟩ | ⟨-, hsign⟩
  · simp only [key, hsign]
    exact isNaN_times_minus_one h
  · simp only [key, hsign, unchanged_times_one h]
    exact h

/-- The key of a key is the score again, whatever number it is. -/
theorem key_key_of_number (s : Selection) (h : a.score.isNaN = false) : s.key (s.key a) = a := by
  rcases s.sign_cases with ⟨-, hsign⟩ | ⟨-, hsign⟩
  · simp only [key, hsign, unchanged_times_minus_one_twice h]
  · simp only [key, hsign, unchanged_times_one h]

/-- Smaller keys are better scores. -/
theorem key_le_key_iff (s : Selection) (ha : a.score.isNaN = false) (hb : b.score.isNaN = false) :
    (s.key a).score ≤ (s.key b).score ↔ ScoredPair.noWorse s.bound.largest a b = true := by
  rcases s.sign_cases with ⟨hlargest, hsign⟩ | ⟨hlargest, hsign⟩
  · simp only [key, hsign, ScoredPair.noWorse, hlargest, if_true, decide_eq_true_eq]
    exact times_minus_one_le_iff ha hb
  · simp only [key, hsign, ScoredPair.noWorse, hlargest, Bool.false_eq_true, if_false, decide_eq_true_eq,
      unchanged_times_one ha, unchanged_times_one hb]

/-- Entries are ordered as the places of their keys. -/
def keyPlace (bound : Bound) (e : ScoredPair × Nat) : WithTop (WithBot ℚ) := place ((new bound).key e.1).score

/-- An entry is no worse than another just in case a selection finds its key not larger. -/
theorem decide_keyPlace_le {d e : ScoredPair × Nat} (hd : d.1.score.isNaN = false) (he : e.1.score.isNaN = false) :
    decide (keyPlace bound d ≤ keyPlace bound e) =
      decide (((new bound).key d.1).score ≤ ((new bound).key e.1).score) :=
  decide_eq_decide.mpr (le_iff_place (key_score_isNaN (new bound) hd) (key_score_isNaN (new bound) he)).symm

theorem noWorse_eq_keyPlace {d e : ScoredPair × Nat} (hd : d.1.score.isNaN = false)
    (he : e.1.score.isNaN = false) :
    ScoredPair.noWorse bound.largest d.1 e.1 = decide (keyPlace bound d ≤ keyPlace bound e) := by
  rw [decide_keyPlace_le hd he, Bool.eq_iff_iff, decide_eq_true_iff]
  exact (key_le_key_iff (new bound) hd he).symm

theorem ranking_eq_keyPlace (bound : Bound) (offered : List ScoredPair) :
    ranking bound.largest offered = (offered.zipIdx.filter fun e => !e.1.score.isNaN).mergeSort
      fun d e => decide (keyPlace bound d ≤ keyPlace bound e) := by
  refine mergeSort_congr fun d hd e he => noWorse_eq_keyPlace ?_ ?_
  · simpa using (List.mem_filter.mp hd).2
  · simpa using (List.mem_filter.mp he).2

theorem keyPlace_trans (bound : Bound) (c d e : ScoredPair × Nat) :
    decide (keyPlace bound c ≤ keyPlace bound d) → decide (keyPlace bound d ≤ keyPlace bound e) →
      decide (keyPlace bound c ≤ keyPlace bound e) := by
  simpa only [decide_eq_true_eq] using le_trans

theorem keyPlace_total (bound : Bound) (d e : ScoredPair × Nat) :
    decide (keyPlace bound d ≤ keyPlace bound e) || decide (keyPlace bound e ≤ keyPlace bound d) := by
  simpa only [Bool.or_eq_true, decide_eq_true_eq] using le_total _ _

/-- One more number goes behind all that are no worse. -/
theorem ranking_concat (h : entry.score.isNaN = false) :
    ranking bound.largest (offered ++ [entry]) =
      insertBehind (fun d e => decide (keyPlace bound d ≤ keyPlace bound e)) (entry, offered.length)
        (ranking bound.largest offered) := by
  rw [ranking_eq_keyPlace, filter_zipIdx_concat, h, if_neg Bool.false_ne_true,
    mergeSort_concat (keyPlace_trans bound) (keyPlace_total bound), ← ranking_eq_keyPlace]

/-- One entry comes before another: its key is smaller, or as large and it was offered earlier. -/
def RanksBefore (bound : Bound) (d e : ScoredPair × Nat) : Prop :=
  keyPlace bound d < keyPlace bound e ∨ keyPlace bound d = keyPlace bound e ∧ d.2 < e.2

theorem snd_lt_of_mem_ranking {e : ScoredPair × Nat} (h : e ∈ ranking largest offered) : e.2 < offered.length :=
  (List.getElem?_eq_some_iff.mp (mem_ranking.mp h).1).1

/-- In the ranking equal scores keep the order of their offers. -/
theorem pairwise_ranksBefore (bound : Bound) (offered : List ScoredPair) :
    (ranking bound.largest offered).Pairwise (RanksBefore bound) := by
  induction offered using List.reverseRecOn with
  | nil => simp [ranking_nil]
  | append_singleton offered entry ih =>
    cases h : entry.score.isNaN with
    | true => rwa [ranking_concat_of_isNaN h]
    | false =>
      rw [ranking_concat h]
      exact pairwise_insertBehind (fun e he => snd_lt_of_mem_ranking he) ih

theorem keyPlace_le_iff {d e : ScoredPair × Nat} (hd : d.1.score.isNaN = false) (he : e.1.score.isNaN = false) :
    keyPlace bound d ≤ keyPlace bound e ↔
      if bound.largest then place e.1.score ≤ place d.1.score else place d.1.score ≤ place e.1.score := by
  rw [← decide_eq_true_iff (p := keyPlace bound d ≤ keyPlace bound e), ← noWorse_eq_keyPlace hd he,
    ScoredPair.noWorse]
  cases bound.largest with
  | true => rw [if_pos rfl, if_pos rfl, decide_eq_true_iff, le_iff_place he hd]
  | false =>
    rw [if_neg Bool.false_ne_true, if_neg Bool.false_ne_true, decide_eq_true_iff, le_iff_place hd he]

/-- The ranking in terms of scores: the better ones come first, and equal ones in the order of their offers. -/
theorem ranking_ordered (bound : Bound) (offered : List ScoredPair) :
    (ranking bound.largest offered).Pairwise fun d e =>
      ScoredPair.Better bound.largest d.1 e.1 ∨ (d.1.score == e.1.score) = true ∧ d.2 < e.2 := by
  refine (pairwise_ranksBefore bound offered).imp_of_mem fun {d e} hd he h => ?_
  have hd := (mem_ranking.mp hd).2
  have he := (mem_ranking.mp he).2
  rw [RanksBefore, lt_iff_not_ge, le_antisymm_iff, keyPlace_le_iff hd he, keyPlace_le_iff he hd] at h
  rw [ScoredPair.Better, beq_iff_place hd he, lt_iff_place he hd, lt_iff_place hd he,
    le_antisymm_iff (a := place d.1.score)]
  cases hlargest : bound.largest with
  | true =>
    simp only [hlargest, if_true, not_le] at h ⊢
    rwa [and_comm (a := place d.1.score ≤ place e.1.score)]
  | false => simpa only [hlargest, Bool.false_eq_true, if_false, not_le] using h

/-! ## What a selection keeps -/

/-- The ranking as a selection holds it: with keys instead of scores. -/
def keyedRanking (bound : Bound) (offered : List ScoredPair) : List ScoredPair :=
  (ranking bound.largest offered).map fun e => (new bound).key e.1

theorem isNaN_of_mem_keyedRanking {e : ScoredPair} (h : e ∈ keyedRanking bound offered) :
    e.score.isNaN = false := by
  obtain ⟨original, hmem, rfl⟩ := List.mem_map.mp h
  exact key_score_isNaN (new bound) (mem_ranking.mp hmem).2

theorem pairwise_keyedRanking (bound : Bound) (offered : List ScoredPair) :
    (keyedRanking bound offered).Pairwise fun d e => place d.score ≤ place e.score :=
  List.pairwise_map.mpr ((pairwise_ranksBefore bound offered).imp fun h => h.elim le_of_lt fun h => h.1.le)

theorem keyedRanking_concat (h : entry.score.isNaN = false) :
    keyedRanking bound (offered ++ [entry]) =
      insert ((new bound).key entry) (keyedRanking bound offered) := by
  rw [keyedRanking, ranking_concat h, insert_eq_insertBehind]
  exact map_insertBehind (f := fun e : ScoredPair × Nat => (new bound).key e.1) fun e he =>
    decide_keyPlace_le (mem_ranking.mp he).2 h

/-- Doubles that are no NaNs are ordered as their places. -/
theorem rankedBy_place : RankedBy (fun e => place e.score) fun e => e.score.isNaN = false :=
  fun _ _ ha hb => le_iff_place ha hb

theorem offer_of_refused {s : Selection} (h : s.bound.capacity = 0 ∨ entry.score.isNaN = true) :
    s.offer entry = (false, s) := if_pos h

/-- Offers in order leave the front of their ranking. -/
theorem offerAll_eq_ranking (bound : Bound) (offered : List ScoredPair) :
    (new bound).offerAll offered = ⟨bound, (keyedRanking bound offered).take bound.capacity⟩ := by
  induction offered using List.reverseRecOn with
  | nil => simp [offerAll, keyedRanking, ranking_nil, new]
  | append_singleton offered entry ih =>
    have hstep : (new bound).offerAll (offered ++ [entry]) =
        (((new bound).offerAll offered).offer entry).2 := List.foldl_concat ..
    rw [hstep, ih]
    cases hnan : entry.score.isNaN with
    | true =>
      rw [offer_of_refused (.inr hnan)]
      unfold keyedRanking
      rw [ranking_concat_of_isNaN hnan]
    | false =>
      rcases Nat.eq_zero_or_pos bound.capacity with hzero | hpos
      · rw [offer_of_refused (.inl hzero), hzero, List.take_zero, List.take_zero]
      · rw [keyedRanking_concat hnan]
        exact offer_eq rankedBy_place hpos rfl (pairwise_keyedRanking bound offered)
          (fun _ => isNaN_of_mem_keyedRanking) (key_score_isNaN (new bound) hnan) hnan

end Selection

end PackedGraph
