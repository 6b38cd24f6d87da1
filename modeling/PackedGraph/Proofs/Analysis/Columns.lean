import Mathlib.Data.List.InsertIdx
import PackedGraph.Analysis.Columns
import PackedGraph.Proofs.Analysis.Ranking

/-!
# The columns hold a selection

As long as the keys ascend, halving finds where the keys up to a new one end, and that is where the new entry
is put.  So columns and selection make every step together, and what was proved of selections holds of columns.

Main statements: `Columns.position_eq`, `Selection.columns_offer`, `Selection.offer_fst_iff_mem` and
`selection_truncates_stable_sort`.
-/

namespace PackedGraph

/-! ## Halving -/

/-- Keys that are numbers, smallest first. -/
structure Ascending (keys : List Float) : Prop where
  /-- They are numbers. -/
  numbers : ∀ key ∈ keys, key.isNaN = false
  /-- No key is less than one before it. -/
  sorted : keys.Pairwise fun j k => place j ≤ place k

theorem Ascending.sublist {keys keys' : List Float} (h : Ascending keys) (hsub : keys'.Sublist keys) :
    Ascending keys' :=
  ⟨fun key hkey => h.numbers key (hsub.subset hkey), h.sorted.sublist hsub⟩

/-- How many keys in front are up to some key. -/
def countUpTo (keys : List Float) (key : Float) : Nat := (keys.takeWhile fun k => decide (k ≤ key)).length

theorem countUpTo_le_length (keys : List Float) (key : Float) : countUpTo keys key ≤ keys.length :=
  (List.takeWhile_sublist _).length_le

theorem countUpTo_cons_of_le {k key : Float} (h : k ≤ key) (ks : List Float) :
    countUpTo (k :: ks) key = countUpTo ks key + 1 := by simp [countUpTo, h]

theorem countUpTo_cons_of_not_le {k key : Float} (h : ¬ k ≤ key) (ks : List Float) :
    countUpTo (k :: ks) key = 0 := by simp [countUpTo, h]

/-- Ascending keys are up to some key just in front. -/
theorem Ascending.le_iff_lt_countUpTo {keys : List Float} (h : Ascending keys) {key : Float}
    (hkey : key.isNaN = false) {i : Nat} (hi : i < keys.length) : keys.getD i 0 ≤ key ↔ i < countUpTo keys key := by
  induction keys generalizing i with
  | nil => exact absurd hi (Nat.not_lt_zero i)
  | cons k ks ih =>
    obtain ⟨hhead, hsorted⟩ := List.pairwise_cons.mp h.sorted
    have hk := h.numbers k List.mem_cons_self
    by_cases hle : k ≤ key
    · rw [countUpTo_cons_of_le hle]
      cases i with
      | zero => exact iff_of_true hle (Nat.succ_pos _)
      | succ i =>
        rw [Nat.succ_lt_succ_iff, List.getD_cons_succ]
        exact ih (h.sublist (List.sublist_cons_self k ks)) (Nat.lt_of_succ_lt_succ hi)
    · rw [countUpTo_cons_of_not_le hle, iff_false_right (Nat.not_lt_zero i)]
      cases i with
      | zero => exact hle
      | succ i =>
        have hi := Nat.lt_of_succ_lt_succ hi
        have hmem : ks.getD i 0 ∈ ks := by
          rw [List.getD_eq_getElem _ _ hi]
          exact List.getElem_mem hi
        rw [le_iff_place hk hkey] at hle
        rw [List.getD_cons_succ, le_iff_place (h.numbers _ (List.mem_cons_of_mem k hmem)) hkey]
        exact fun hnext => hle ((hhead _ hmem).trans hnext)

namespace Columns

/-- Halving keeps the end of the keys up to some key among those that are left. -/
theorem searchFrom_eq {keys : List Float} {key : Float} {count : Nat}
    (hcount : ∀ i < keys.length, keys.getD i 0 ≤ key ↔ i < count) {base size : Nat} (hsize : 0 < size)
    (hend : base + size ≤ keys.length) (hlow : base = 0 ∨ base < count) (hhigh : count ≤ base + size) :
    searchFrom keys key base size = count := by
  fun_induction searchFrom keys key base size with
  | case1 base size hone hle =>
    have := (hcount base (by omega)).mp hle
    omega
  | case2 base size hone hle =>
    have : ¬ base < count := fun hlt => hle ((hcount base (by omega)).mpr hlt)
    omega
  | case3 base size htwo middle ih =>
    have hmiddle := hcount middle (by omega)
    by_cases hle : keys.getD middle 0 ≤ key
    · have hlt := hmiddle.mp hle
      rw [dif_pos hle] at ih
      rw [if_pos hle]
      exact ih (by omega) (by omega) (.inr hlt) (by omega)
    · have hge : count ≤ middle := Nat.le_of_not_lt fun hlt => hle (hmiddle.mpr hlt)
      rw [dif_neg hle] at ih
      rw [if_neg hle]
      exact ih (by omega) (by omega) hlow (by omega)

/-- A new key is put behind all keys up to it. -/
theorem position_eq {keys : List Float} (h : Ascending keys) {key : Float} (hkey : key.isNaN = false) :
    position keys key = countUpTo keys key := by
  cases keys with
  | nil => rfl
  | cons k ks =>
    rw [position, List.isEmpty_cons, if_neg Bool.false_ne_true]
    refine searchFrom_eq (fun i hi => h.le_iff_lt_countUpTo hkey hi) (Nat.succ_pos _) (by simp) (.inl rfl) ?_
    rw [Nat.zero_add]
    exact countUpTo_le_length _ _

end Columns

/-! ## Columns and selections -/

namespace Selection

variable {s : Selection} {entry : ScoredPair} {offered : List ScoredPair}

/-- A selection, column by column. -/
def columns (s : Selection) : Columns :=
  ⟨s.bound, s.keyed.map (·.first), s.keyed.map (·.second), s.keyed.map (·.score)⟩

theorem columns_sign (s : Selection) : s.columns.sign = s.sign := rfl

/-- The three columns together are the entries. -/
theorem columns_entries (s : Selection) : s.columns.entries = s.entries := by
  rw [Columns.entries, Columns.scores, columns_sign, entries]
  simp only [columns]
  generalize s.sign = sign
  induction s.keyed with
  | nil => rfl
  | cons e rest ih => simpa using ih

/-- An insertion tells its place. -/
theorem insert_eq_insertIdx (entry : ScoredPair) (entries : List ScoredPair) :
    insert entry entries = entries.insertIdx (countUpTo (entries.map (·.score)) entry.score) entry := by
  induction entries with
  | nil => rfl
  | cons other rest ih =>
    by_cases h : other.score ≤ entry.score
    · rw [insert_of_le h, ih, List.map_cons, countUpTo_cons_of_le h, List.insertIdx_succ_cons]
    · rw [insert_of_not_le h, List.map_cons, countUpTo_cons_of_not_le h, List.insertIdx_zero]

/-- In every column the entry goes to the same place. -/
theorem columns_insert (h : Ascending (s.keyed.map (·.score))) (hentry : entry.score.isNaN = false) :
    s.columns.insert entry (s.key entry).score =
      columns { s with keyed := insert (s.key entry) s.keyed } := by
  have hposition := Columns.position_eq h (key_score_isNaN s hentry)
  rw [insert_eq_insertIdx, Columns.insert]
  simp only [columns, hposition, List.map_insertIdx]
  rfl

theorem columns_dropWorst (s : Selection) :
    s.columns.dropWorst = columns { s with keyed := s.keyed.dropLast } := by
  simp only [Columns.dropWorst, columns, List.map_dropLast]

/-! ## Offers, case by case -/

/-- What can be kept at all. -/
def Eligible (bound : Bound) (entry : ScoredPair) : Prop := bound.capacity ≠ 0 ∧ entry.score.isNaN = false

theorem not_refused (h : Eligible s.bound entry) : ¬ (s.bound.capacity = 0 ∨ entry.score.isNaN = true) := by
  rintro (hzero | hnan)
  · exact h.1 hzero
  · exact Bool.false_ne_true (h.2.symm.trans hnan)

theorem offer_of_room (h : Eligible s.bound entry) (hroom : s.size ≠ s.bound.capacity) :
    s.offer entry = (true, { s with keyed := insert (s.key entry) s.keyed }) := by
  rw [offer, if_neg (not_refused h)]
  exact if_neg hroom

theorem offer_of_full (h : Eligible s.bound entry) (hfull : s.size = s.bound.capacity) {worst : ScoredPair}
    (hworst : s.keyed.getLast? = some worst) :
    s.offer entry = if worst.score ≤ (s.key entry).score then (false, s)
      else (true, { s with keyed := insert (s.key entry) s.keyed.dropLast }) := by
  rw [offer, if_neg (not_refused h)]
  refine (if_pos hfull).trans ?_
  simp only [hworst]
  rfl

/-- A full selection has a worst entry. -/
theorem exists_worst (h : Eligible s.bound entry) (hfull : s.size = s.bound.capacity) :
    ∃ worst, s.keyed.getLast? = some worst := by
  refine Option.ne_none_iff_exists'.mp fun hnone => h.1 ?_
  rw [← hfull, size, List.getLast?_eq_none_iff.mp hnone, List.length_nil]

theorem columns_offer_of_room (h : Eligible s.bound entry) (hroom : s.size ≠ s.bound.capacity) :
    s.columns.offer entry = (true, s.columns.insert entry (s.key entry).score) := by
  have hsize : s.columns.keys.length = s.size := List.length_map ..
  rw [Columns.offer]
  refine (if_neg (not_refused h)).trans ?_
  simp only [hsize]
  exact if_neg hroom

theorem columns_offer_of_full (h : Eligible s.bound entry) (hfull : s.size = s.bound.capacity)
    {worst : ScoredPair} (hworst : s.keyed.getLast? = some worst) :
    s.columns.offer entry = if worst.score ≤ (s.key entry).score then (false, s.columns)
      else (true, s.columns.dropWorst.insert entry (s.key entry).score) := by
  have hsize : s.columns.keys.length = s.size := List.length_map ..
  have hlast : s.columns.keys.getLast? = some worst.score := by
    rw [columns, List.getLast?_map, hworst, Option.map_some]
  rw [Columns.offer]
  refine (if_neg (not_refused h)).trans ?_
  simp only [hsize, hlast]
  exact if_pos hfull

/-- Columns and selection take the same entries, to the same places. -/
theorem columns_offer (h : Ascending (s.keyed.map (·.score))) (entry : ScoredPair) :
    s.columns.offer entry = ((s.offer entry).1, (s.offer entry).2.columns) := by
  by_cases hrefused : s.bound.capacity = 0 ∨ entry.score.isNaN = true
  · rw [offer_of_refused hrefused]
    exact if_pos hrefused
  · have heligible : Eligible s.bound entry := by
      rwa [not_or, Bool.not_eq_true] at hrefused
    by_cases hfull : s.size = s.bound.capacity
    · obtain ⟨worst, hworst⟩ := exists_worst heligible hfull
      rw [columns_offer_of_full heligible hfull hworst, offer_of_full heligible hfull hworst]
      by_cases hle : worst.score ≤ (s.key entry).score
      · rw [if_pos hle, if_pos hle]
      · have hdropped : Ascending (s.keyed.dropLast.map (·.score)) := h.sublist ((List.dropLast_sublist _).map _)
        rw [if_neg hle, if_neg hle, columns_dropWorst]
        exact congrArg (Prod.mk true) (columns_insert (s := { s with keyed := s.keyed.dropLast }) hdropped heligible.2)
    · rw [columns_offer_of_room heligible hfull, offer_of_room heligible hfull, columns_insert h heligible.2]

/-! ## Everything that was offered -/

section Offered

variable {bound : Bound}

theorem ascending_keyedRanking (bound : Bound) (offered : List ScoredPair) :
    Ascending ((keyedRanking bound offered).map (·.score)) where
  numbers := by
    intro key hkey
    obtain ⟨e, he, rfl⟩ := List.mem_map.mp hkey
    exact isNaN_of_mem_keyedRanking he
  sorted := List.pairwise_map.mpr (pairwise_keyedRanking bound offered)

theorem ascending_offerAll (bound : Bound) (offered : List ScoredPair) :
    Ascending (((new bound).offerAll offered).keyed.map (·.score)) := by
  rw [offerAll_eq_ranking]
  exact (ascending_keyedRanking bound offered).sublist ((List.take_sublist _ _).map _)

/-- Columns and selection stay together. -/
theorem columns_offerAll (bound : Bound) (offered : List ScoredPair) :
    (Columns.new bound).offerAll offered = ((new bound).offerAll offered).columns := by
  induction offered using List.reverseRecOn with
  | nil => rfl
  | append_singleton offered entry ih =>
    rw [Columns.offerAll, offerAll, List.foldl_concat, List.foldl_concat]
    change (((Columns.new bound).offerAll offered).offer entry).2 =
      (((new bound).offerAll offered).offer entry).2.columns
    rw [ih, columns_offer (ascending_offerAll bound offered)]

theorem offerAll_append (s : Selection) (xs ys : List ScoredPair) :
    s.offerAll (xs ++ ys) = (s.offerAll xs).offerAll ys := List.foldl_append ..

/-- Merging is offering on. -/
theorem columns_merge (bound bound' : Bound) (xs ys : List ScoredPair) :
    ((Columns.new bound).offerAll xs).merge ((Columns.new bound').offerAll ys) =
      (((new bound).offerAll xs).merge ((new bound').offerAll ys)).columns := by
  rw [Columns.merge, merge, columns_offerAll bound' ys, columns_entries, ← offerAll_append, ← columns_offerAll]
  exact (List.foldl_append ..).symm

/-- The scores come back as they were offered. -/
theorem entries_offerAll_eq (bound : Bound) (offered : List ScoredPair) :
    ((new bound).offerAll offered).entries =
      ((ranking bound.largest offered).take bound.capacity).map Prod.fst := by
  rw [offerAll_eq_ranking, keyedRanking, ← List.map_take]
  change (((ranking bound.largest offered).take bound.capacity).map _).map (new bound).key = _
  rw [List.map_map]
  refine List.map_congr_left fun e he => ?_
  exact key_key_of_number (new bound) (mem_ranking.mp (List.mem_of_mem_take he)).2

theorem takeWhile_congr {α : Type} {p q : α → Bool} {xs : List α} (h : ∀ x ∈ xs, p x = q x) :
    xs.takeWhile p = xs.takeWhile q := by
  induction xs with
  | nil => rfl
  | cons x xs ih =>
    rw [List.forall_mem_cons] at h
    rw [List.takeWhile_cons, List.takeWhile_cons, h.1, ih h.2]

/-- Where the last offer stands in the ranking. -/
theorem ranking_concat_eq (bound : Bound) (offered : List ScoredPair) (h : entry.score.isNaN = false) :
    ∃ front back, ranking bound.largest (offered ++ [entry]) = front ++ (entry, offered.length) :: back ∧
      front.length = countUpTo ((keyedRanking bound offered).map (·.score)) ((new bound).key entry).score ∧
      ∀ e ∈ front ++ back, e.2 < offered.length := by
  rw [ranking_concat h, insertBehind_eq]
  refine ⟨_, _, rfl, ?_, fun e he => ?_⟩
  · rw [countUpTo, keyedRanking, List.map_map, List.takeWhile_map, List.length_map]
    exact congrArg List.length (takeWhile_congr fun e he => decide_keyPlace_le (mem_ranking.mp he).2 h)
  · rw [List.takeWhile_append_dropWhile] at he
    exact snd_lt_of_mem_ranking he

/-- An entry is kept just in case fewer entries than are kept are no worse. -/
theorem offer_fst_iff (h : Eligible bound entry) :
    (((new bound).offerAll offered).offer entry).1 = true ↔
      countUpTo ((keyedRanking bound offered).map (·.score)) ((new bound).key entry).score < bound.capacity := by
  have hascending := ascending_keyedRanking bound offered
  have hkey := key_score_isNaN (new bound) h.2
  rw [offerAll_eq_ranking]
  by_cases hfull : ((keyedRanking bound offered).take bound.capacity).length = bound.capacity
  · have hpos : 0 < bound.capacity := Nat.pos_of_ne_zero h.1
    have hlong : bound.capacity ≤ (keyedRanking bound offered).length := by
      rw [List.length_take] at hfull
      omega
    have hlast : bound.capacity - 1 < (keyedRanking bound offered).length := by omega
    have hworst : ((keyedRanking bound offered).take bound.capacity).getLast? =
        some (keyedRanking bound offered)[bound.capacity - 1] := by
      rw [List.getLast?_eq_getElem?, hfull, List.getElem?_take_of_lt (by omega), List.getElem?_eq_getElem hlast]
    have hle := hascending.le_iff_lt_countUpTo hkey (i := bound.capacity - 1) (by rwa [List.length_map])
    rw [List.getD_eq_getElem _ _ (by rwa [List.length_map]), List.getElem_map] at hle
    rw [offer_of_full (s := ⟨bound, _⟩) h hfull hworst]
    change (if _ ≤ ((new bound).key entry).score then _ else _ : Bool × Selection).1 = true ↔ _
    by_cases hnoWorse : (keyedRanking bound offered)[bound.capacity - 1].score ≤ ((new bound).key entry).score
    · rw [if_pos hnoWorse]
      exact iff_of_false Bool.false_ne_true (by have := hle.mp hnoWorse; omega)
    · rw [if_neg hnoWorse]
      exact iff_of_true rfl (by have := mt hle.mpr hnoWorse; omega)
  · rw [offer_of_room (s := ⟨bound, _⟩) h hfull]
    refine iff_of_true rfl ((countUpTo_le_length _ _).trans_lt ?_)
    rw [List.length_take] at hfull
    rw [List.length_map]
    omega

/-- The last offer is among so many if fewer stand in front of it. -/
theorem mem_take_iff {front back : List (ScoredPair × Nat)} {number : Nat}
    (hother : ∀ e ∈ front ++ back, e.2 < number) (entry : ScoredPair) (count : Nat) :
    number ∈ ((front ++ (entry, number) :: back).take count).map Prod.snd ↔ front.length < count := by
  refine ⟨fun hmem => ?_, fun hlt => ?_⟩
  · by_contra hge
    rw [List.take_append_of_le_length (not_lt.mp hge)] at hmem
    obtain ⟨e, he, rfl⟩ := List.mem_map.mp hmem
    exact lt_irrefl _ (hother e (List.mem_append_left _ (List.mem_of_mem_take he)))
  · obtain ⟨rest, rfl⟩ : ∃ rest, count = front.length + (rest + 1) := ⟨count - front.length - 1, by omega⟩
    rw [List.take_length_add_append, List.take_succ_cons, List.map_append, List.map_cons]
    exact List.mem_append_right _ List.mem_cons_self

/-- An offer is accepted just in case it is among those that are kept right after it. -/
theorem offer_fst_iff_mem (bound : Bound) (offered : List ScoredPair) (entry : ScoredPair) :
    (((new bound).offerAll offered).offer entry).1 = true ↔
      offered.length ∈ ((ranking bound.largest (offered ++ [entry])).take bound.capacity).map Prod.snd := by
  by_cases hrefused : bound.capacity = 0 ∨ entry.score.isNaN = true
  · have hoffer : ((new bound).offerAll offered).offer entry = (false, (new bound).offerAll offered) :=
      offer_of_refused (by rwa [offerAll_eq_ranking])
    rw [hoffer]
    refine iff_of_false Bool.false_ne_true fun hmem => ?_
    rcases hrefused with hzero | hnan
    · rw [hzero, List.take_zero] at hmem
      exact List.not_mem_nil hmem
    · rw [ranking_concat_of_isNaN hnan] at hmem
      obtain ⟨e, he, hnumber⟩ := List.mem_map.mp hmem
      exact Nat.ne_of_lt (snd_lt_of_mem_ranking (List.mem_of_mem_take he)) hnumber
  · have h : Eligible bound entry := by rwa [not_or, Bool.not_eq_true] at hrefused
    obtain ⟨front, back, hranking, hfront, hother⟩ := ranking_concat_eq bound offered h.2
    rw [offer_fst_iff h, hranking, mem_take_iff hother, hfront]

end Offered

end Selection

/-- Columns that hold the front of a stable sort of all numbers offered. -/
structure Columns.HoldFront (c : Columns) (bound : Bound) (offered : List ScoredPair) : Prop where
  /-- The entries are the first so many of the stable sort, with the scores as they were offered. -/
  entries_eq : c.entries =
    ((offered.filter fun e => !e.score.isNaN).mergeSort (ScoredPair.noWorse bound.largest)).take bound.capacity
  /-- The ranking tells which offers these are. -/
  entries_eq_ranking : c.entries = ((ranking bound.largest offered).take bound.capacity).map Prod.fst
  /-- The first column is as long as the last. -/
  firsts_length : c.firsts.length = c.keys.length
  /-- The second column is as long as the last. -/
  seconds_length : c.seconds.length = c.keys.length
  /-- No more is kept than may be. -/
  keys_length : c.keys.length ≤ bound.capacity
  /-- One more offer is accepted just in case it is among those that are kept right after it. -/
  accepts_iff : ∀ entry, (c.offer entry).1 = true ↔
    offered.length ∈ ((ranking bound.largest (offered ++ [entry])).take bound.capacity).map Prod.snd

theorem Selection.holdFront_columns (bound : Bound) (offered : List ScoredPair) :
    ((new bound).offerAll offered).columns.HoldFront bound offered := by
  have hentries : ((new bound).offerAll offered).columns.entries =
      ((ranking bound.largest offered).take bound.capacity).map Prod.fst := by
    rw [columns_entries, entries_offerAll_eq]
  refine ⟨?_, hentries, ?_, ?_, ?_, fun entry => ?_⟩
  · rw [hentries, List.map_take, ranking_map_fst]
  · rw [columns, List.length_map, List.length_map]
  · rw [columns, List.length_map, List.length_map]
  · rw [columns, List.length_map, offerAll_eq_ranking]
    exact List.length_take_le _ _
  · rw [columns_offer (ascending_offerAll bound offered), offer_fst_iff_mem]

theorem Columns.new?_eq (bound : Bound) :
    Columns.new? bound = if bound.capacity * Selection.partBytes ≤ largestBlock then .ok (Columns.new bound)
      else .error .noRoom := by
  by_cases hroom : bound.capacity * Selection.partBytes ≤ largestBlock
  · rw [if_pos hroom, Columns.new?, reserve, if_pos hroom]
    rfl
  · rw [if_neg hroom, Columns.new?, reserve, if_neg hroom]
    rfl

/-- A selection of everything offered is a truncated stable sort, whichever end it keeps and however much.

Columns can be made unless one of them would be larger than any block may be.  After any offers they hold the
front of a stable sort of all that are numbers, in which better scores come first and equal ones keep the
order of their offers, and so does the selection that they store. -/
theorem selection_truncates_stable_sort (bound : Bound) (offered : List ScoredPair) :
    (Columns.new? bound = if bound.capacity * Selection.partBytes ≤ largestBlock then .ok (Columns.new bound)
      else .error .noRoom) ∧
    ((Columns.new bound).offerAll offered).HoldFront bound offered ∧
    ((ranking bound.largest offered).Pairwise fun d e =>
      ScoredPair.Better bound.largest d.1 e.1 ∨ (d.1.score == e.1.score) = true ∧ d.2 < e.2) ∧
    (Columns.new bound).offerAll offered = ((Selection.new bound).offerAll offered).columns ∧
    ((Columns.new bound).offerAll offered).entries = ((Selection.new bound).offerAll offered).entries := by
  rw [Selection.columns_offerAll]
  exact ⟨Columns.new?_eq bound, Selection.holdFront_columns bound offered,
    Selection.ranking_ordered bound offered, rfl, Selection.columns_entries _⟩

end PackedGraph
