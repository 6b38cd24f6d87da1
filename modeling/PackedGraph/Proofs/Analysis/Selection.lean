import PackedGraph.Analysis.Selection
import PackedGraph.Proofs.Analysis.StableSort
import PackedGraph.Proofs.Numeric.Signs

/-!
# A selection is a truncated sort

Offering an entry to a selection is inserting it into the sorted list of everything offered so far and
cutting the list off behind the capacity: what is worse than the last entry that is kept would be cut off
at once, and what is cut off never comes back.

Main statements: `Selection.take_insert`, `Selection.offerAll_eq` and `Selection.ranked_offerAll`.
-/

namespace PackedGraph

namespace Selection

variable {entry : ScoredPair} {entries : List ScoredPair}

/-! ## Inserting -/

theorem insert_of_le {other : ScoredPair} (h : other.score ≤ entry.score) (rest : List ScoredPair) :
    insert entry (other :: rest) = other :: insert entry rest := by
  simp [insert, h]

theorem insert_of_not_le {other : ScoredPair} (h : ¬ other.score ≤ entry.score)
    (rest : List ScoredPair) : insert entry (other :: rest) = entry :: other :: rest := by
  simp [insert, h]

theorem insert_perm (entry : ScoredPair) (entries : List ScoredPair) :
    (insert entry entries).Perm (entry :: entries) := by
  induction entries with
  | nil => simp [insert]
  | cons other rest ih =>
    by_cases h : other.score ≤ entry.score
    · rw [insert_of_le h]
      exact (ih.cons other).trans (.swap entry other rest)
    · rw [insert_of_not_le h]

/-- A selection inserts behind all entries that are no worse. -/
theorem insert_eq_insertBehind (entry : ScoredPair) (entries : List ScoredPair) :
    insert entry entries = insertBehind (fun d e => decide (d.score ≤ e.score)) entry entries := by
  induction entries with
  | nil => rfl
  | cons other rest ih => simp [insert, insertBehind, ih]

/-- What goes behind so many entries does not change them. -/
theorem take_insert_of_forall_le {count : Nat} (h : ∀ other ∈ entries.take count, other.score ≤ entry.score)
    (hlength : count ≤ entries.length) : (insert entry entries).take count = entries.take count := by
  induction entries generalizing count with
  | nil =>
    obtain rfl : count = 0 := Nat.le_zero.mp hlength
    simp
  | cons other rest ih =>
    cases count with
    | zero => simp
    | succ count =>
      simp only [List.take_succ_cons, List.mem_cons, forall_eq_or_imp] at h
      rw [insert_of_le h.1, List.take_succ_cons, List.take_succ_cons, ih h.2 (by simpa using hlength)]

/-- What goes in front of one of so many entries drops the last of them. -/
theorem take_insert {count : Nat}
    (h : entries.length ≤ count ∨ ∃ other ∈ entries.take (count + 1), ¬ other.score ≤ entry.score) :
    (insert entry entries).take (count + 1) = insert entry (entries.take count) := by
  induction entries generalizing count with
  | nil => simp [insert]
  | cons other rest ih =>
    by_cases hle : other.score ≤ entry.score
    · rw [insert_of_le hle, List.take_succ_cons]
      cases count with
      | zero =>
        rcases h with h | ⟨worse, hmem, hworse⟩
        · simp at h
        · simp only [Nat.zero_add, List.take_succ_cons, List.take_zero, List.mem_singleton] at hmem
          exact absurd (hmem ▸ hle) hworse
      | succ count =>
        rw [List.take_succ_cons, insert_of_le hle, ih]
        rcases h with h | ⟨worse, hmem, hworse⟩
        · exact .inl (by simpa using h)
        · right
          rw [List.take_succ_cons, List.mem_cons] at hmem
          rcases hmem with rfl | hmem
          · exact absurd hle hworse
          · exact ⟨worse, hmem, hworse⟩
    · rw [insert_of_not_le hle, List.take_succ_cons]
      cases count with
      | zero => simp [insert]
      | succ count => rw [List.take_succ_cons, insert_of_not_le hle]

/-! ## Ranks -/

section Ranks

variable {α : Type} [LinearOrder α] {rank : ScoredPair → α} {known : ScoredPair → Prop}

/-- Scores are ordered as ranks are. -/
def RankedBy (rank : ScoredPair → α) (known : ScoredPair → Prop) : Prop :=
  ∀ a b, known a → known b → (a.score ≤ b.score ↔ rank a ≤ rank b)

/-- An entry is inserted behind those of its own rank, so it keeps behind whatever was offered before. -/
theorem pairwise_insert (hrank : RankedBy rank known) {earlier : ScoredPair → ScoredPair → Prop}
    (hentry : known entry) (hknown : ∀ other ∈ entries, known other)
    (hearlier : ∀ other ∈ entries, earlier other entry)
    (h : entries.Pairwise fun a b => rank a < rank b ∨ rank a = rank b ∧ earlier a b) :
    (insert entry entries).Pairwise fun a b => rank a < rank b ∨ rank a = rank b ∧ earlier a b := by
  have hbehind : insert entry entries = insertBehind (fun a b => decide (rank a ≤ rank b)) entry entries := by
    rw [insert_eq_insertBehind]
    exact insertBehind_congr fun other hother =>
      decide_eq_decide.mpr (hrank other entry (hknown other hother) hentry)
  rw [hbehind]
  exact pairwise_insertBehind hearlier h

/-- In a sorted list, what is no worse than the last of so many entries is no worse than any of them. -/
theorem forall_le_of_getLast (hrank : RankedBy rank known) (hknown : ∀ other ∈ entries, known other)
    (hentry : known entry) (h : entries.Pairwise fun a b => rank a ≤ rank b) {worst : ScoredPair}
    (hworst : entries.getLast? = some worst) (hle : worst.score ≤ entry.score) :
    ∀ other ∈ entries, other.score ≤ entry.score := by
  intro other hother
  obtain ⟨front, rfl⟩ := List.getLast?_eq_some_iff.mp hworst
  have hworstKnown := hknown worst (by simp)
  have hrankWorst := (hrank _ _ hworstKnown hentry).mp hle
  rw [hrank _ _ (hknown other hother) hentry]
  rcases List.mem_append.mp hother with hfront | hlast
  · exact ((List.pairwise_append.mp h).2.2 other hfront worst (by simp)).trans hrankWorst
  · rw [List.mem_singleton.mp hlast]
    exact hrankWorst

/-! ## Offering -/

/-- An entry with the key by which a selection orders it. -/
def key (s : Selection) (entry : ScoredPair) : ScoredPair := { entry with score := entry.score * s.sign }

/-- Everything offered, sorted by keys. -/
def sortAll (s : Selection) (entries : List ScoredPair) (sorted : List ScoredPair) : List ScoredPair :=
  entries.foldl (fun sorted entry => insert (s.key entry) sorted) sorted

/-- An offer is an insertion into all that was offered before, cut off behind the capacity. -/
theorem offer_eq {s : Selection} (hrank : RankedBy rank known) (hcapacity : 0 < s.bound.capacity)
    {sorted : List ScoredPair} (hkeyed : s.keyed = sorted.take s.bound.capacity)
    (hsorted : sorted.Pairwise fun a b => rank a ≤ rank b) (hknown : ∀ other ∈ sorted, known other)
    (hentry : known (s.key entry)) (hnumber : entry.score.isNaN = false) :
    (s.offer entry).2 = { s with keyed := (insert (s.key entry) sorted).take s.bound.capacity } := by
  obtain ⟨count, hcount⟩ : ∃ count, s.bound.capacity = count + 1 :=
    ⟨s.bound.capacity - 1, by omega⟩
  have hstart : ¬ (s.bound.capacity = 0 ∨ entry.score.isNaN = true) := by
    rintro (hzero | hnan)
    · exact Nat.ne_of_gt hcapacity hzero
    · exact Bool.false_ne_true (hnumber.symm.trans hnan)
  have hsize : s.size = min s.bound.capacity sorted.length := by
    rw [size, hkeyed, List.length_take]
  rw [offer, if_neg hstart]
  change Prod.snd (if s.size = s.bound.capacity then _ else _) = _
  by_cases hfull : s.size = s.bound.capacity
  · have hlong : count + 1 ≤ sorted.length := by omega
    rw [if_pos hfull]
    have hne : s.keyed ≠ [] := by
      rw [hkeyed, hcount]
      intro hnil
      have := congrArg List.length hnil
      rw [List.length_take, List.length_nil] at this
      omega
    obtain ⟨worst, hworst⟩ := Option.ne_none_iff_exists'.mp (List.getLast?_eq_none_iff.not.mpr hne)
    simp only [hworst]
    change Prod.snd (if worst.score ≤ (s.key entry).score then _ else _) = _
    rw [hkeyed, hcount] at hworst
    by_cases hle : worst.score ≤ (s.key entry).score
    · -- nobody gives way
      have hall := forall_le_of_getLast hrank (fun other hother => hknown other (List.mem_of_mem_take hother))
        hentry (hsorted.sublist (List.take_sublist _ _)) hworst hle
      rw [if_pos hle, hcount, take_insert_of_forall_le hall hlong, ← hcount, ← hkeyed]
    · have hmem : worst ∈ sorted.take (count + 1) := List.mem_of_getLast? hworst
      have hdrop : (sorted.take (count + 1)).dropLast = sorted.take count := by
        rw [List.dropLast_eq_take, List.length_take, List.take_take]
        congr 1
        omega
      rw [if_neg hle, hkeyed, hcount, hdrop, take_insert (.inr ⟨worst, hmem, hle⟩)]
      rfl
  · have hshort : sorted.length ≤ count := by omega
    rw [if_neg hfull, hkeyed, hcount, take_insert (.inl hshort), List.take_of_length_le hshort,
      List.take_of_length_le (Nat.le_succ_of_le hshort)]
    rfl

/-- Offers in order sort everything offered, and cut it off behind the capacity. -/
theorem offerAll_eq {s : Selection} (hrank : RankedBy rank known) (hcapacity : 0 < s.bound.capacity)
    {earlier : ScoredPair → ScoredPair → Prop} {offered : List ScoredPair}
    (hoffered : ∀ entry ∈ offered, known (s.key entry) ∧ entry.score.isNaN = false)
    (horder : offered.Pairwise fun a b => earlier (s.key a) (s.key b)) {sorted : List ScoredPair}
    (hkeyed : s.keyed = sorted.take s.bound.capacity) (hknown : ∀ other ∈ sorted, known other)
    (hearlier : ∀ other ∈ sorted, ∀ entry ∈ offered, earlier other (s.key entry))
    (hsorted : sorted.Pairwise fun a b => rank a < rank b ∨ rank a = rank b ∧ earlier a b) :
    s.offerAll offered = { s with keyed := (s.sortAll offered sorted).take s.bound.capacity } ∧
      (s.sortAll offered sorted).Perm (offered.map s.key ++ sorted) ∧
      (s.sortAll offered sorted).Pairwise fun a b => rank a < rank b ∨ rank a = rank b ∧ earlier a b := by
  induction offered generalizing s sorted with
  | nil =>
    refine ⟨?_, .refl _, hsorted⟩
    change s = _
    rw [sortAll, List.foldl_nil, ← hkeyed]
  | cons entry offered ih =>
    simp only [List.mem_cons, forall_eq_or_imp] at hoffered hearlier
    obtain ⟨hfirst, hothers⟩ := List.pairwise_cons.mp horder
    have hle : sorted.Pairwise fun a b => rank a ≤ rank b := by
      refine hsorted.imp fun {a b} h => ?_
      rcases h with hlt | ⟨heq, -⟩
      · exact hlt.le
      · exact heq.le
    have hoffer := offer_eq hrank hcapacity hkeyed hle hknown hoffered.1.1 hoffered.1.2
    have hmem := insert_perm (s.key entry) sorted
    obtain ⟨hresult, hperm, hpairwise⟩ := @ih
      { s with keyed := (insert (s.key entry) sorted).take s.bound.capacity } hcapacity hoffered.2 hothers
      (insert (s.key entry) sorted) rfl
      (by
        intro other hother
        rcases List.mem_cons.mp (hmem.mem_iff.mp hother) with rfl | hother
        · exact hoffered.1.1
        · exact hknown other hother)
      (by
        intro other hother later hlater
        rcases List.mem_cons.mp (hmem.mem_iff.mp hother) with rfl | hother
        · exact hfirst later hlater
        · exact (hearlier other hother).2 later hlater)
      (pairwise_insert hrank hoffered.1.1 hknown (fun other hother => (hearlier other hother).1) hsorted)
    refine ⟨?_, ?_, hpairwise⟩
    · rw [offerAll, List.foldl_cons, hoffer]
      exact hresult
    · refine hperm.trans ?_
      rw [List.map_cons, List.cons_append]
      exact (hmem.append_left _).trans List.perm_middle

end Ranks

/-! ## The best entries -/

theorem sign_cases (s : Selection) : s.bound.largest = true ∧ s.sign = -1 ∨ s.bound.largest = false ∧ s.sign = 1 := by
  cases hlargest : s.bound.largest <;> simp [sign, hlargest]

theorem packed_key (s : Selection) (h : Packed entry.score) : Packed (s.key entry).score := by
  rcases s.sign_cases with ⟨-, hsign⟩ | ⟨-, hsign⟩
  · simp only [key, hsign]
    exact packed_times_minus_one h
  · simp only [key, hsign, times_one h]
    exact h

/-- The key of a key is the score again. -/
theorem key_key (s : Selection) (h : Packed entry.score) : s.key (s.key entry) = entry := by
  rcases s.sign_cases with ⟨-, hsign⟩ | ⟨-, hsign⟩
  · simp only [key, hsign, times_minus_one h]
  · simp only [key, hsign, times_one h]

/-- Doubles that are numbers are ordered as their values. -/
theorem rankedBy_value : RankedBy (fun e => value e.score) fun e => Packed e.score :=
  fun _ _ ha hb => le_iff_value ha.isFinite hb.isFinite

theorem isNaN_of_packed {x : Float} (h : Packed x) : x.isNaN = false := by
  obtain ⟨u, hu, rfl⟩ := h
  change (Float.Model.pack u).unpack.isNaN = false
  rw [unpack_pack_of_number hu]
  cases u with
  | notANumber => exact absurd hu id
  | infinity s => rfl
  | zero s => rfl
  | finite s m e hpos => rfl

end Selection

/-- The better of two scores, in a selection of the largest or of the smallest. -/
def ScoredPair.Better (largest : Bool) (a b : ScoredPair) : Prop :=
  if largest then b.score < a.score else a.score < b.score

/-- One pair comes before another in a selection of the largest or of the smallest scores: it has the
better score, or an equal score and the smaller second node. -/
def ScoredPair.Before (largest : Bool) (a b : ScoredPair) : Prop :=
  (if largest then b.score < a.score else a.score < b.score) ∨
    (a.score == b.score) = true ∧ a.second < b.second

namespace Selection

/-- Better keys are better scores. -/
theorem better_key (s : Selection) {earlier : ScoredPair → ScoredPair → Prop} {a b : ScoredPair}
    (ha : Packed a.score) (hb : Packed b.score)
    (h : value a.score < value b.score ∨ value a.score = value b.score ∧ earlier (s.key a) (s.key b)) :
    ScoredPair.Better s.bound.largest (s.key a) (s.key b) ∨
      ((s.key a).score == (s.key b).score) = true ∧ earlier (s.key a) (s.key b) := by
  have ha' := (packed_key s ha).isFinite
  have hb' := (packed_key s hb).isFinite
  rw [ScoredPair.Better, lt_iff_value hb' ha', lt_iff_value ha' hb', beq_iff_value ha' hb']
  rcases s.sign_cases with ⟨hlargest, hsign⟩ | ⟨hlargest, hsign⟩
  · simp only [key, hsign, hlargest, if_true, value_times_minus_one ha, value_times_minus_one hb,
      neg_lt_neg_iff, neg_inj] at h ⊢
    exact h
  · simp only [key, hsign, hlargest, Bool.false_eq_true, if_false, times_one ha, times_one hb] at h ⊢
    exact h

/-- Of pairs that are offered in some order, a new selection keeps the best so many, and of pairs with
equal scores the earlier ones. -/
theorem ranked_offerAll {bound : Bound} (hcapacity : 0 < bound.capacity)
    {earlier : ScoredPair → ScoredPair → Prop} {offered : List ScoredPair}
    (hpacked : ∀ entry ∈ offered, Packed entry.score) (horder : offered.Pairwise earlier) :
    ∃ ranked : List ScoredPair, ranked.Perm offered ∧
      (ranked.Pairwise fun a b => ScoredPair.Better bound.largest a b ∨
        (a.score == b.score) = true ∧ earlier a b) ∧
      ((new bound).offerAll offered).entries = ranked.take bound.capacity := by
  have hkey : ∀ entry ∈ offered, (new bound).key ((new bound).key entry) = entry := fun entry hentry =>
    key_key (new bound) (hpacked entry hentry)
  obtain ⟨hresult, hperm, hpairwise⟩ := @offerAll_eq ℚ _ (fun e => value e.score) (fun e => Packed e.score)
    (new bound) rankedBy_value hcapacity (fun a b => earlier ((new bound).key a) ((new bound).key b)) offered
    (fun entry hentry => ⟨packed_key _ (hpacked entry hentry), isNaN_of_packed (hpacked entry hentry)⟩)
    (horder.imp_of_mem fun {a b} ha hb h => by rw [hkey a ha, hkey b hb]; exact h)
    [] List.take_nil.symm (by simp) (by simp) List.Pairwise.nil
  rw [List.append_nil] at hperm
  generalize (new bound).sortAll offered [] = sorted at hresult hperm hpairwise
  have hsorted : ∀ entry ∈ sorted, Packed entry.score := by
    intro entry hentry
    obtain ⟨original, hmem, rfl⟩ := List.mem_map.mp (hperm.mem_iff.mp hentry)
    exact packed_key _ (hpacked original hmem)
  have hback : (offered.map (new bound).key).map (new bound).key = offered := by
    rw [List.map_map]
    exact (List.map_congr_left hkey).trans (List.map_id offered)
  refine ⟨sorted.map (new bound).key, ?_, ?_, ?_⟩
  · rw [← hback]
    exact hperm.map _
  · rw [List.pairwise_map]
    exact hpairwise.imp_of_mem fun ha hb h => better_key (new bound) (hsorted _ ha) (hsorted _ hb) h
  · rw [hresult, ← List.map_take]
    rfl

/-- Of pairs that are offered by ascending second nodes, a new selection keeps the best so many. -/
theorem entries_offerAll {bound : Bound} (hcapacity : 0 < bound.capacity) {offered : List ScoredPair}
    (hpacked : ∀ entry ∈ offered, Packed entry.score)
    (horder : offered.Pairwise fun a b => a.second < b.second) :
    ∃ ranked : List ScoredPair, ranked.Perm offered ∧ ranked.Pairwise (ScoredPair.Before bound.largest) ∧
      ((new bound).offerAll offered).entries = ranked.take bound.capacity :=
  ranked_offerAll hcapacity hpacked horder

end Selection

end PackedGraph
