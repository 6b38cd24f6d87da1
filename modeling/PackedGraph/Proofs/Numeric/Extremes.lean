import Mathlib.Data.List.Perm.Basic
import Mathlib.Order.WithBot
import PackedGraph.Proofs.Numeric.Value

/-!
# The least and the largest of some doubles

Doubles that are not NaNs are ordered by their *place*: between the two infinities it is the value.  A NaN
gives way to any number, so it may be given the last place when the least number is looked for, and the first
place when it is the largest.  Then `floatMin` and `floatMax` are the minimum and the maximum of places, and
their folds do not depend on the order of the list.

Main statements: `sameNumber_foldl_floatMin` and `sameNumber_foldl_floatMax`.
-/

namespace PackedGraph

open Float.Model (UnpackedFloat)
open Float.Model.UnpackedFloat

/-! ## Places -/

/-- The place of a value. -/
def valuePlace (q : ℚ) : WithTop (WithBot ℚ) := ((q : WithBot ℚ) : WithTop (WithBot ℚ))

/-- The place of an unpacked double among all that are not NaNs. -/
def unpackedPlace : UnpackedFloat → WithTop (WithBot ℚ)
  | .infinity .positive => ⊤
  | .infinity .negative => ((⊥ : WithBot ℚ) : WithTop (WithBot ℚ))
  | u => valuePlace (unpackedValue u)

theorem unpackedPlace_of_number {u : UnpackedFloat} (h : Number u) :
    unpackedPlace u = valuePlace (unpackedValue u) := by
  cases u with
  | infinity sign => exact absurd h id
  | notANumber => exact absurd h id
  | zero | finite => rfl

theorem compare_valuePlace (a b : ℚ) : compare (valuePlace a) (valuePlace b) = compare a b := by
  rw [← cmp_eq_compare, ← cmp_eq_compare]
  exact (WithTop.coe_strictMono.comp WithBot.coe_strictMono).cmp_map_eq a b

/-- Every value is between the infinities. -/
theorem valuePlace_bounds (q : ℚ) :
    unpackedPlace (.infinity .negative) < valuePlace q ∧ valuePlace q < unpackedPlace (.infinity .positive) :=
  ⟨WithTop.coe_lt_coe.mpr (WithBot.bot_lt_coe q), WithTop.coe_lt_top _⟩

theorem compare_infinity_number (sign : Sign) {u : UnpackedFloat} (h : Number u) :
    UnpackedFloat.compare (.infinity sign) u =
      some (compare (unpackedPlace (.infinity sign)) (unpackedPlace u)) := by
  rw [unpackedPlace_of_number h]
  cases sign with
  | positive =>
    rw [compare_gt_iff_gt.mpr (valuePlace_bounds _).2]
    cases u <;> first | rfl | exact absurd h id
  | negative =>
    rw [compare_lt_iff_lt.mpr (valuePlace_bounds _).1]
    cases u <;> first | rfl | exact absurd h id

theorem compare_number_infinity (sign : Sign) {u : UnpackedFloat} (h : Number u) :
    UnpackedFloat.compare u (.infinity sign) =
      some (compare (unpackedPlace u) (unpackedPlace (.infinity sign))) := by
  rw [unpackedPlace_of_number h]
  cases sign with
  | positive =>
    rw [compare_lt_iff_lt.mpr (valuePlace_bounds _).2]
    cases u <;> first | rfl | exact absurd h id
  | negative =>
    rw [compare_gt_iff_gt.mpr (valuePlace_bounds _).1]
    cases u <;> first | rfl | exact absurd h id

/-- What can be unpacked and is no NaN. -/
def Placed (u : UnpackedFloat) : Prop := (∃ sign, u = .infinity sign) ∨ Number u

/-- Unpacked doubles compare as their places do. -/
theorem compare_unpackedPlace {a b : UnpackedFloat} (ha : Placed a) (hb : Placed b) :
    a.compare b = some (compare (unpackedPlace a) (unpackedPlace b)) := by
  rcases ha with ⟨sign, rfl⟩ | ha
  · rcases hb with ⟨sign', rfl⟩ | hb
    · cases sign <;> cases sign' <;> rfl
    · exact compare_infinity_number sign hb
  · rcases hb with ⟨sign, rfl⟩ | hb
    · exact compare_number_infinity sign ha
    · rw [compare_unpacked ha hb, unpackedPlace_of_number ha, unpackedPlace_of_number hb, compare_valuePlace]

/-- The place of a double that is not a NaN. -/
def place (x : Float) : WithTop (WithBot ℚ) := unpackedPlace x.toModel.unpack

variable {x y : Float}

theorem placed_of_not_isNaN (h : x.isNaN = false) : Placed x.toModel.unpack := by
  rcases unpack_cases x.toModel.toBits.toBitVec with hinfinity | heq | hnumber
  · exact .inl hinfinity
  · change (unpack .binary64 x.toModel.toBits.toBitVec).isNaN = false at h
    rw [heq] at h
    exact absurd h Bool.true_eq_false_eq_False
  · exact .inr hnumber

theorem compare_eq_place (hx : x.isNaN = false) (hy : y.isNaN = false) :
    x.toModel.compare y.toModel = some (compare (place x) (place y)) :=
  compare_unpackedPlace (placed_of_not_isNaN hx) (placed_of_not_isNaN hy)

theorem lt_iff_place (hx : x.isNaN = false) (hy : y.isNaN = false) : x < y ↔ place x < place y := by
  change decide ((x.toModel.compare y.toModel == some .lt) = true) = true ↔ _
  rw [decide_eq_true_iff, compare_eq_place hx hy, ← compare_lt_iff_lt]
  simp

theorem beq_iff_place (hx : x.isNaN = false) (hy : y.isNaN = false) : (x == y) = true ↔ place x = place y := by
  change (x.toModel.compare y.toModel == some .eq) = true ↔ _
  rw [compare_eq_place hx hy, ← compare_eq_iff_eq]
  simp

theorem eq_notANumber_of_isNaN {u : UnpackedFloat} (h : u.isNaN = true) : u = .notANumber := by
  cases u <;> first | rfl | exact absurd h Bool.false_ne_true

/-- A NaN is neither less nor greater than anything. -/
theorem not_lt_of_isNaN (h : x.isNaN = true ∨ y.isNaN = true) : ¬ x < y := by
  have hnone : x.toModel.compare y.toModel = none := by
    change x.toModel.unpack.isNaN = true ∨ y.toModel.unpack.isNaN = true at h
    rw [Float.Model.compare]
    generalize x.toModel.unpack = a, y.toModel.unpack = b at h
    rcases h with h | h
    · rw [eq_notANumber_of_isNaN h]
      cases b <;> rfl
    · rw [eq_notANumber_of_isNaN h]
      cases a <;> rfl
  change ¬ decide ((x.toModel.compare y.toModel == some .lt) = true) = true
  rw [hnone]
  decide

/-! ## Folds that do not depend on the order -/

/-- Equal numbers, or two NaNs. -/
def SameNumber (x y : Float) : Prop := (x == y) = true ∨ x.isNaN = true ∧ y.isNaN = true

/-- The place of a double in an order that has one more place, for the NaNs. -/
def placeWith {P : Type} (absent : P) (present : WithTop (WithBot ℚ) → P) (x : Float) : P :=
  if x.isNaN then absent else present (place x)

section

variable {P : Type} {absent : P} {present : WithTop (WithBot ℚ) → P}

theorem placeWith_of_isNaN (h : x.isNaN = true) : placeWith absent present x = absent := if_pos h

theorem placeWith_of_not_isNaN (h : x.isNaN = false) : placeWith absent present x = present (place x) := by
  rw [placeWith, h, if_neg Bool.false_ne_true]

/-- Doubles in the same place are the same number. -/
theorem sameNumber_of_placeWith (hpresent : Function.Injective present) (habsent : ∀ p, present p ≠ absent)
    (h : placeWith absent present x = placeWith absent present y) : SameNumber x y := by
  cases hx : x.isNaN with
  | true =>
    cases hy : y.isNaN with
    | true => exact .inr ⟨hx, hy⟩
    | false =>
      rw [placeWith_of_isNaN hx, placeWith_of_not_isNaN hy] at h
      exact absurd h.symm (habsent _)
  | false =>
    cases hy : y.isNaN with
    | true =>
      rw [placeWith_of_not_isNaN hx, placeWith_of_isNaN hy] at h
      exact absurd h (habsent _)
    | false =>
      rw [placeWith_of_not_isNaN hx, placeWith_of_not_isNaN hy] at h
      exact .inl ((beq_iff_place hx hy).mpr (hpresent h))

/-- A fold that leads to the same place whichever of two doubles is taken first does so in every order. -/
theorem placeWith_foldl_of_perm {op : P → P → P} (hcomm : ∀ p q r, op (op p q) r = op (op p r) q)
    (hunit : ∀ p, op absent p = p) {combine : Float → Float → Float} (hcombine : ∀ x y,
      placeWith absent present (combine x y) = op (placeWith absent present x) (placeWith absent present y))
    {xs ys : List Float} (h : (x :: xs).Perm (y :: ys)) :
    placeWith absent present (xs.foldl combine x) = placeWith absent present (ys.foldl combine y) := by
  have hfold : ∀ (x : Float) (xs : List Float), placeWith absent present (xs.foldl combine x) =
      (x :: xs).foldl (fun p x => op p (placeWith absent present x)) absent := fun x xs => by
    rw [List.foldl_cons, hunit]
    exact (List.foldl_hom (placeWith absent present) fun x y => (hcombine x y).symm).symm
  rw [hfold, hfold]
  exact h.foldl_eq' (fun a _ b _ p => hcomm p _ _) absent

end

/-! ## The least and the largest number -/

theorem placeWith_floatMin (x y : Float) : placeWith ⊤ WithTop.some (floatMin x y) =
    min (placeWith ⊤ WithTop.some x) (placeWith ⊤ WithTop.some y) := by
  rw [floatMin]
  cases hx : x.isNaN with
  | true => rw [if_pos rfl, placeWith_of_isNaN hx, top_inf_eq]
  | false =>
    rw [if_neg Bool.false_ne_true]
    cases hy : y.isNaN with
    | true => rw [if_neg (not_lt_of_isNaN (.inl hy)), placeWith_of_isNaN hy, inf_top_eq]
    | false =>
      rw [placeWith_of_not_isNaN hx, placeWith_of_not_isNaN hy, ← WithTop.coe_min]
      by_cases hlt : y < x
      · rw [if_pos hlt, placeWith_of_not_isNaN hy, min_eq_right ((lt_iff_place hy hx).mp hlt).le]
      · rw [if_neg hlt, placeWith_of_not_isNaN hx, min_eq_left]
        exact not_lt.mp fun h => hlt ((lt_iff_place hy hx).mpr h)

theorem placeWith_floatMax (x y : Float) : placeWith ⊥ WithBot.some (floatMax x y) =
    max (placeWith ⊥ WithBot.some x) (placeWith ⊥ WithBot.some y) := by
  rw [floatMax]
  cases hx : x.isNaN with
  | true => rw [if_pos rfl, placeWith_of_isNaN hx, bot_sup_eq]
  | false =>
    rw [if_neg Bool.false_ne_true]
    cases hy : y.isNaN with
    | true => rw [if_neg (not_lt_of_isNaN (.inr hy)), placeWith_of_isNaN hy, sup_bot_eq]
    | false =>
      rw [placeWith_of_not_isNaN hx, placeWith_of_not_isNaN hy, ← WithBot.coe_max]
      by_cases hlt : x < y
      · rw [if_pos hlt, placeWith_of_not_isNaN hy, max_eq_right ((lt_iff_place hx hy).mp hlt).le]
      · rw [if_neg hlt, placeWith_of_not_isNaN hx, max_eq_left]
        exact not_lt.mp fun h => hlt ((lt_iff_place hx hy).mpr h)

/-- The least number is the same in every order. -/
theorem sameNumber_foldl_floatMin {xs ys : List Float} (h : (x :: xs).Perm (y :: ys)) :
    SameNumber (xs.foldl floatMin x) (ys.foldl floatMin y) :=
  sameNumber_of_placeWith WithTop.coe_injective (fun _ => WithTop.coe_ne_top)
    (placeWith_foldl_of_perm min_right_comm top_inf_eq placeWith_floatMin h)

/-- And so is the largest. -/
theorem sameNumber_foldl_floatMax {xs ys : List Float} (h : (x :: xs).Perm (y :: ys)) :
    SameNumber (xs.foldl floatMax x) (ys.foldl floatMax y) :=
  sameNumber_of_placeWith WithBot.coe_injective (fun _ => WithBot.coe_ne_bot)
    (placeWith_foldl_of_perm max_right_comm bot_sup_eq placeWith_floatMax h)

end PackedGraph
