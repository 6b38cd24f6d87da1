import Mathlib.Data.List.Induction
import PackedGraph.Ingest.Packing
import PackedGraph.Proofs.Numeric.Counting

/-!
# What an aggregation keeps

The relationships of a node are merged in one pass over a list that is sorted by target.  The pass is
described target by target: `Aggregation.kept` says which weights remain of those that arrived for one
target, and a merged row has, for every target, just these.

Main statements: `Aggregation.merge_spec` and `Aggregation.exists_merge`.
-/

namespace PackedGraph

/-- The weights towards one target among relationships given by target and weight, in order. -/
def weightsTo (target : Nat) (relationships : List (Nat × Float)) : List Float :=
  (relationships.filter (·.1 == target)).map Prod.snd

theorem weightsTo_append (target : Nat) (xs ys : List (Nat × Float)) :
    weightsTo target (xs ++ ys) = weightsTo target xs ++ weightsTo target ys := by
  rw [weightsTo, List.filter_append, List.map_append]
  rfl

theorem weightsTo_reverse (target : Nat) (xs : List (Nat × Float)) :
    weightsTo target xs.reverse = (weightsTo target xs).reverse := by
  rw [weightsTo, List.filter_reverse, List.map_reverse]
  rfl

theorem weightsTo_cons_self (target : Nat) (weight : Float) (xs : List (Nat × Float)) :
    weightsTo target ((target, weight) :: xs) = weight :: weightsTo target xs := by
  rw [weightsTo, List.filter_cons_of_pos (by simp), List.map_cons]
  rfl

theorem weightsTo_cons_of_ne {target other : Nat} (h : other ≠ target) (weight : Float)
    (xs : List (Nat × Float)) : weightsTo target ((other, weight) :: xs) = weightsTo target xs := by
  rw [weightsTo, List.filter_cons_of_neg (by simpa using h)]
  rfl

/-- There is none towards what is no target. -/
theorem weightsTo_eq_nil_iff {target : Nat} {xs : List (Nat × Float)} :
    weightsTo target xs = [] ↔ ∀ x ∈ xs, x.1 ≠ target := by
  rw [weightsTo, List.map_eq_nil_iff, List.filter_eq_nil_iff]
  simp only [beq_iff_eq, ne_eq]

/-- There are as many weights as the target occurs. -/
theorem length_weightsTo (target : Nat) (xs : List (Nat × Float)) :
    (weightsTo target xs).length = (xs.map Prod.fst).count target := by
  rw [weightsTo, List.length_map, ← List.countP_eq_length_filter, List.count, List.countP_map]
  rfl

/-- Relationships in the order of their targets are known by the weights towards each target. -/
theorem eq_of_weightsTo {xs ys : List (Nat × Float)} (hxs : (xs.map Prod.fst).Pairwise (· ≤ ·))
    (hys : (ys.map Prod.fst).Pairwise (· ≤ ·)) (h : ∀ target, weightsTo target xs = weightsTo target ys) :
    xs = ys := by
  induction xs generalizing ys with
  | nil =>
    cases ys with
    | nil => rfl
    | cons y ys =>
      have hnone := weightsTo_eq_nil_iff.mp (h y.1).symm y List.mem_cons_self
      exact absurd rfl hnone
  | cons x xs ih =>
    cases ys with
    | nil =>
      have hnone := weightsTo_eq_nil_iff.mp (h x.1) x List.mem_cons_self
      exact absurd rfl hnone
    | cons y ys =>
      -- the first target of either list is one of the other, so it is the least of both
      have hle : ∀ {a b : Nat × Float} {as bs : List (Nat × Float)},
          ((b :: bs).map Prod.fst).Pairwise (· ≤ ·) → weightsTo a.1 (a :: as) = weightsTo a.1 (b :: bs) →
          b.1 ≤ a.1 := by
        intro a b as bs hsorted heq
        have hsome : weightsTo a.1 (b :: bs) ≠ [] := by
          rw [← heq, weightsTo_cons_self]
          exact List.cons_ne_nil _ _
        rw [ne_eq, weightsTo_eq_nil_iff] at hsome
        push Not at hsome
        obtain ⟨c, hc, hca⟩ := hsome
        rw [← hca]
        rcases List.mem_cons.mp hc with rfl | hc
        · exact Nat.le_refl _
        · exact (List.pairwise_cons.mp hsorted).1 _ (List.mem_map_of_mem hc)
      obtain ⟨t, v⟩ := x
      obtain ⟨t', v'⟩ := y
      obtain rfl : t = t' := Nat.le_antisymm (hle hxs (h t').symm) (hle hys (h t))
      have hfirst := h t
      rw [weightsTo_cons_self, weightsTo_cons_self, List.cons.injEq] at hfirst
      obtain ⟨rfl, hsame⟩ := hfirst
      have hrest : ∀ target, weightsTo target xs = weightsTo target ys := by
        intro target
        by_cases heq : t = target
        · subst heq
          exact hsame
        · have := h target
          rwa [weightsTo_cons_of_ne heq, weightsTo_cons_of_ne heq] at this
      rw [ih (List.pairwise_cons.mp hxs).2 (List.pairwise_cons.mp hys).2 hrest]

namespace Aggregation

/-! ## What remains of parallel relationships -/

/-- The weights that remain of parallel relationships, from their weights in order of arrival.  A count
is exact up to `largestCount`, where doubles stop counting. -/
def kept (aggregation : Aggregation) (weights : List Float) : List Float :=
  match weights with
  | [] => []
  | first :: later =>
    match aggregation with
    | none => first :: later
    | reject | single => [first]
    | sum => [later.foldl (· + ·) first]
    | min => [later.foldl floatMin first]
    | max => [later.foldl floatMax first]
    | count => [natToFloat (Nat.min (first :: later).length largestCount)]

theorem kept_singleton (aggregation : Aggregation) (weight : Float) :
    aggregation.kept [weight] = [aggregation.initial weight] := by
  cases aggregation
  case count => exact congrArg (fun x => [x]) (by decide : natToFloat 1 = 1)
  all_goals rfl

theorem kept_none (weights : List Float) : none.kept weights = weights := by
  cases weights <;> rfl

theorem kept_eq_nil_iff {aggregation : Aggregation} {weights : List Float} :
    aggregation.kept weights = [] ↔ weights = [] := by
  cases weights with
  | nil => exact Iff.rfl
  | cons first later => cases aggregation <;> simp [kept]

/-- All weights remain, or one if there is any. -/
theorem length_kept_eq (aggregation : Aggregation) (weights : List Float) :
    (aggregation.kept weights).length =
      if aggregation = none then weights.length else if 0 < weights.length then 1 else 0 := by
  cases weights with
  | nil => cases aggregation <;> rfl
  | cons first later => cases aggregation <;> simp [kept]

/-- One more parallel relationship is combined with what remains of those before. -/
theorem kept_concat {aggregation : Aggregation} (hnone : aggregation ≠ none)
    (hreject : aggregation ≠ reject)
    {weights : List Float} {current : Float} (h : aggregation.kept weights = [current]) (weight : Float) :
    aggregation.kept (weights ++ [weight]) = [aggregation.combine current weight] := by
  cases weights with
  | nil => exact absurd h (by simp [kept])
  | cons first later =>
    cases aggregation with
    | none => exact absurd rfl hnone
    | reject => exact absurd rfl hreject
    | single => exact h
    | sum | min | max =>
      simp only [kept, List.cons.injEq, and_true] at h
      simp only [List.cons_append, kept, List.foldl_append, List.foldl_cons, List.foldl_nil,
        combine, h]
    | count =>
      simp only [kept, List.cons.injEq, and_true] at h
      simp only [List.cons_append, kept, combine, ← h]
      rw [← List.cons_append, List.length_append]
      exact congrArg (fun x => [x]) (natToFloat_add_one _).symm

/-! ## One step -/

/-- What has been taken, latest first, is what remains of the relationships of a node so far. -/
structure Merged (aggregation : Aggregation) (own taken : List (Nat × Float)) : Prop where
  /-- Targets ascend towards the latest. -/
  ascending : taken.Pairwise fun later earlier => earlier.1 ≤ later.1
  /-- They ascend strictly, unless all are kept. -/
  strict : aggregation ≠ none → taken.Pairwise fun later earlier => earlier.1 < later.1
  /-- For every target there is what remains of its relationships. -/
  weights : ∀ target, (weightsTo target taken).reverse = aggregation.kept (weightsTo target own)

variable {aggregation : Aggregation} {own taken : List (Nat × Float)} {target : Nat} {weight : Float}

theorem merged_nil (aggregation : Aggregation) : Merged aggregation [] [] :=
  ⟨.nil, fun _ => .nil, fun _ => rfl⟩

/-- The targets that have been taken are those of the node. -/
theorem Merged.no_weights_iff (h : Merged aggregation own taken) (target : Nat) :
    weightsTo target taken = [] ↔ weightsTo target own = [] := by
  have hkept : aggregation.kept (weightsTo target own) = [] ↔ weightsTo target own = [] := kept_eq_nil_iff
  rw [← hkept, ← h.weights, List.reverse_eq_nil_iff]

/-- What bounds the targets of the node bounds those that have been taken. -/
theorem Merged.le_of_le (h : Merged aggregation own taken) {bound : Nat}
    (hle : ∀ x ∈ own, x.1 ≤ bound) :
    ∀ entry ∈ taken, entry.1 ≤ bound := by
  intro entry hentry
  by_contra hgt
  have hnil := (h.no_weights_iff entry.1).mpr
    (weightsTo_eq_nil_iff.mpr fun x hx heq => hgt (heq ▸ hle x hx))
  exact weightsTo_eq_nil_iff.mp hnil entry hentry rfl

/-- A target that has not been taken is new, and comes behind all others. -/
theorem Merged.push (h : Merged aggregation own taken) (hle : ∀ x ∈ own, x.1 ≤ target)
    (hnew : weightsTo target taken = []) :
    Merged aggregation (own ++ [(target, weight)]) ((target, aggregation.initial weight) :: taken) := by
  have hbefore : ∀ entry ∈ taken, entry.1 < target := fun entry hentry =>
    Nat.lt_of_le_of_ne (h.le_of_le hle entry hentry) (weightsTo_eq_nil_iff.mp hnew entry hentry)
  refine ⟨?_, ?_, ?_⟩
  · exact List.pairwise_cons.mpr ⟨fun entry hentry => Nat.le_of_lt (hbefore entry hentry), h.ascending⟩
  · exact fun hnone => List.pairwise_cons.mpr ⟨hbefore, h.strict hnone⟩
  · intro other
    rw [weightsTo_append]
    by_cases hother : target = other
    · subst hother
      rw [weightsTo_cons_self, weightsTo_cons_self, (h.no_weights_iff target).mp hnew, hnew]
      exact (kept_singleton _ _).symm
    · rw [weightsTo_cons_of_ne hother, weightsTo_cons_of_ne hother, h.weights,
        show weightsTo other [] = [] from rfl, List.append_nil]

/-- Where all are kept, a parallel relationship is put beside the others. -/
theorem Merged.keep (h : Merged none own taken) (hle : ∀ x ∈ own, x.1 ≤ target) :
    Merged none (own ++ [(target, weight)]) ((target, weight) :: taken) := by
  refine ⟨?_, fun hnone => absurd rfl hnone, ?_⟩
  · exact List.pairwise_cons.mpr ⟨h.le_of_le hle, h.ascending⟩
  · intro other
    have hweights := h.weights other
    rw [kept_none] at hweights ⊢
    rw [weightsTo_append, ← hweights]
    by_cases hother : target = other
    · subst hother
      rw [weightsTo_cons_self, weightsTo_cons_self, List.reverse_cons]
      rfl
    · rw [weightsTo_cons_of_ne hother, weightsTo_cons_of_ne hother,
        show weightsTo other [] = [] from rfl, List.append_nil]

/-- Else it is combined with the latest. -/
theorem Merged.combine (hnone : aggregation ≠ none) (hreject : aggregation ≠ reject)
    {current : Float}
    {rest : List (Nat × Float)} (h : Merged aggregation own ((target, current) :: rest)) :
    Merged aggregation (own ++ [(target, weight)]) ((target, aggregation.combine current weight) :: rest) := by
  obtain ⟨hbefore, hrest⟩ := List.pairwise_cons.mp (h.strict hnone)
  refine ⟨?_, ?_, ?_⟩
  · exact List.pairwise_cons.mpr (List.pairwise_cons.mp h.ascending)
  · exact fun _ => List.pairwise_cons.mpr ⟨hbefore, hrest⟩
  · intro other
    have hweights := h.weights other
    rw [weightsTo_append]
    by_cases hother : target = other
    · subst hother
      have hfresh : weightsTo target rest = [] :=
        weightsTo_eq_nil_iff.mpr fun entry hentry => Nat.ne_of_lt (hbefore entry hentry)
      rw [weightsTo_cons_self, hfresh] at hweights
      rw [weightsTo_cons_self, hfresh, weightsTo_cons_self]
      exact (kept_concat hnone hreject hweights.symm weight).symm
    · rw [weightsTo_cons_of_ne hother] at hweights
      rw [weightsTo_cons_of_ne hother, weightsTo_cons_of_ne hother, hweights,
        show weightsTo other [] = [] from rfl, List.append_nil]

/-- A step takes the next relationship, whose target is not in front of those before. -/
theorem merged_take (h : Merged aggregation own taken) (hle : ∀ x ∈ own, x.1 ≤ target)
    {taken' : List (Nat × Float)} (htake : aggregation.take taken (target, weight) = .ok taken') :
    Merged aggregation (own ++ [(target, weight)]) taken' := by
  cases taken with
  | nil =>
    obtain rfl := Except.ok.inj htake
    exact h.push hle rfl
  | cons latest rest =>
    obtain ⟨latest, current⟩ := latest
    rw [Aggregation.take.eq_def] at htake
    simp only at htake
    by_cases hne : latest ≠ target
    · rw [if_pos hne] at htake
      obtain rfl := Except.ok.inj htake
      refine h.push hle (weightsTo_eq_nil_iff.mpr fun entry hentry heq => hne ?_)
      -- The latest is the largest that has been taken, and no larger than the next.
      have hlatest := h.le_of_le hle _ List.mem_cons_self
      rcases List.mem_cons.mp hentry with rfl | hentry
      · exact heq
      · have := (List.pairwise_cons.mp h.ascending).1 entry hentry
        simp only at this hlatest
        omega
    · obtain rfl := not_ne_iff.mp hne
      rw [if_neg hne] at htake
      cases aggregation with
      | none =>
        obtain rfl := Except.ok.inj htake
        exact h.keep hle
      | reject => exact absurd htake (by simp)
      | single | sum | min | max | count =>
        obtain rfl := Except.ok.inj htake
        exact h.combine (by simp) (by simp)

/-- Only a parallel relationship can be refused, and only where that is asked for. -/
theorem exists_take (h : aggregation ≠ reject) (taken : List (Nat × Float)) (next : Nat × Float) :
    ∃ taken', aggregation.take taken next = .ok taken' := by
  cases taken with
  | nil => exact ⟨_, rfl⟩
  | cons latest rest =>
    rw [Aggregation.take.eq_def]
    simp only
    split
    · exact ⟨_, rfl⟩
    · cases aggregation with
      | reject => exact absurd rfl h
      | none | single | sum | min | max | count => exact ⟨_, rfl⟩

/-! ## The whole pass -/

/-- Taking one more comes behind taking those before. -/
theorem foldlM_take_concat (aggregation : Aggregation) (own : List (Nat × Float))
    (next : Nat × Float) :
    (own ++ [next]).foldlM aggregation.take [] =
      (own.foldlM aggregation.take []).bind fun taken => aggregation.take taken next := by
  rw [List.foldlM_append]
  cases own.foldlM aggregation.take [] with
  | error target => rfl
  | ok taken =>
    change (aggregation.take taken next).bind .ok = aggregation.take taken next
    cases aggregation.take taken next <;> rfl

theorem merged_foldlM (hsorted : own.Pairwise (·.1 ≤ ·.1))
    (htake : own.foldlM aggregation.take [] = .ok taken) : Merged aggregation own taken := by
  induction own using List.reverseRecOn generalizing taken with
  | nil =>
    obtain rfl := Except.ok.inj htake
    exact merged_nil aggregation
  | append_singleton own next ih =>
    obtain ⟨hown, -, hle⟩ := List.pairwise_append.mp hsorted
    rw [foldlM_take_concat] at htake
    cases hbefore : own.foldlM aggregation.take [] with
    | error target =>
      rw [hbefore] at htake
      exact absurd htake (by simp [Except.bind])
    | ok before =>
      rw [hbefore] at htake
      exact merged_take (ih hown hbefore) (fun x hx => hle x hx next (List.mem_singleton_self _)) htake

/-- A merged row has, in order of the targets, what remains of the relationships towards each. -/
theorem merge_spec {row : List (Nat × Float)} (hsorted : own.Pairwise (·.1 ≤ ·.1))
    (h : aggregation.merge own = .ok row) :
    (row.map Prod.fst).Pairwise (· ≤ ·) ∧
      (aggregation ≠ none → (row.map Prod.fst).Pairwise (· < ·)) ∧
      ∀ target, weightsTo target row = aggregation.kept (weightsTo target own) := by
  rw [merge] at h
  cases htaken : own.foldlM aggregation.take [] with
  | error target =>
    rw [htaken] at h
    exact absurd h (by simp [Except.map])
  | ok taken =>
    rw [htaken] at h
    obtain rfl := Except.ok.inj h
    obtain ⟨hascending, hstrict, hweights⟩ := merged_foldlM hsorted htaken
    refine ⟨?_, fun hnone => ?_, fun target => ?_⟩
    · rw [List.pairwise_map, List.pairwise_reverse]
      exact hascending
    · rw [List.pairwise_map, List.pairwise_reverse]
      exact hstrict hnone
    · rw [weightsTo_reverse]
      exact hweights target

/-- It is the next target that is refused. -/
theorem eq_of_take_eq_error {next : Nat × Float} {target : Nat}
    (h : aggregation.take taken next = .error target) : next.1 = target := by
  unfold take at h
  cases taken with
  | nil => exact absurd h (by simp)
  | cons latest rest =>
    by_cases heq : latest.1 = next.1
    · cases aggregation <;> simp_all
    · exact absurd h (by simp [heq])

/-- What is refused is one of the targets. -/
theorem mem_of_foldlM_take_eq_error {target : Nat} (h : own.foldlM aggregation.take [] = .error target) :
    ∃ x ∈ own, x.1 = target := by
  induction own using List.reverseRecOn with
  | nil => exact absurd h (by simp [pure, Except.pure])
  | append_singleton own next ih =>
    rw [foldlM_take_concat] at h
    cases hbefore : own.foldlM aggregation.take [] with
    | error first =>
      rw [hbefore] at h
      obtain rfl := Except.error.inj h
      obtain ⟨x, hx, hfirst⟩ := ih hbefore
      exact ⟨x, List.mem_append_left _ hx, hfirst⟩
    | ok taken =>
      rw [hbefore] at h
      exact ⟨next, by simp, eq_of_take_eq_error h⟩

/-- Relationships are merged unless they are to be refused. -/
theorem exists_merge (h : aggregation ≠ reject) (own : List (Nat × Float)) :
    ∃ row, aggregation.merge own = .ok row := by
  suffices htaken : ∃ taken, own.foldlM aggregation.take [] = .ok taken by
    obtain ⟨taken, htaken⟩ := htaken
    exact ⟨taken.reverse, by rw [merge, htaken]; rfl⟩
  induction own using List.reverseRecOn with
  | nil => exact ⟨[], rfl⟩
  | append_singleton own next ih =>
    obtain ⟨before, hbefore⟩ := ih
    obtain ⟨taken, htaken⟩ := exists_take h before next
    exact ⟨taken, by rw [foldlM_take_concat, hbefore]; exact htaken⟩

end Aggregation

end PackedGraph
