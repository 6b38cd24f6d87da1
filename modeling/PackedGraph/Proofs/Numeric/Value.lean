import Mathlib
import PackedGraph.Proofs.Numeric.Counting

/-!
# The number that a double stands for

A finite double stands for a rational number, `value`.  Doubles keep significand and exponent in one
form only, so comparing them place by place is comparing their values.

Main statements: `unpack_pack_of_number`, `le_iff_value`, `lt_iff_value` and `beq_iff_value`.
-/

namespace PackedGraph

open Float.Model (Format totalExponent UnpackedFloat)
open Float.Model.UnpackedFloat

/-! ## Significand and exponent -/

/-- A significand and an exponent in the form in which doubles have them: 53 bits, or fewer with the
least exponent. -/
structure Canonical (m : Nat) (e : Int) : Prop where
  /-- The significand is not too long. -/
  lt : m < 2 ^ 53
  /-- The exponent is not too small. -/
  low : -1074 ≤ e
  /-- Nor is it too large. -/
  high : e ≤ 971
  /-- The significand is short only where the exponent is the least. -/
  full : e = -1074 ∨ 2 ^ 52 ≤ m

/-- The rational number that an unpacked double stands for; zero where there is none. -/
def unpackedValue : UnpackedFloat → ℚ
  | .finite sign m e _ => (sign.apply m : ℤ) * 2 ^ e
  | _ => 0

/-- Zeros, and significands and exponents in the right form. -/
def Number : UnpackedFloat → Prop
  | .zero _ => True
  | .finite _ m e _ => Canonical m e
  | _ => False

theorem two_zpow_pos (e : Int) : (0 : ℚ) < 2 ^ e := zpow_pos (by norm_num) e

/-- The significand of a larger exponent has all its bits, so it outweighs any with a smaller one. -/
theorem Canonical.mul_zpow_lt {m m' : Nat} {e e' : Int} (h : Canonical m e) (h' : Canonical m' e')
    (hlt : e < e' ∨ e = e' ∧ m < m') : (m : ℚ) * 2 ^ e < m' * 2 ^ e' := by
  rcases hlt with hlt | ⟨rfl, hlt⟩
  · have hfull : 2 ^ 52 ≤ m' := by
      have := h.low
      exact h'.full.resolve_left (by omega)
    calc (m : ℚ) * 2 ^ e < 2 ^ 53 * 2 ^ e :=
          mul_lt_mul_of_pos_right (by exact_mod_cast h.lt) (two_zpow_pos e)
      _ = 2 ^ 52 * 2 ^ (e + 1) := by
          rw [zpow_add_one₀ (by norm_num)]
          ring
      _ ≤ 2 ^ 52 * 2 ^ e' :=
          mul_le_mul_of_nonneg_left (zpow_le_zpow_right₀ (by norm_num) (by omega)) (by norm_num)
      _ ≤ m' * 2 ^ e' :=
          mul_le_mul_of_nonneg_right (by exact_mod_cast hfull) (two_zpow_pos e').le
  · exact mul_lt_mul_of_pos_right (by exact_mod_cast hlt) (two_zpow_pos e)

/-- Comparing exponents and then significands is comparing numbers. -/
theorem Canonical.compare_eq {m m' : Nat} {e e' : Int} (h : Canonical m e) (h' : Canonical m' e') :
    (compare e e').then (compare m m') = compare ((m : ℚ) * 2 ^ e) (m' * 2 ^ e') := by
  rcases lt_trichotomy e e' with hlt | rfl | hgt
  · rw [compare_lt_iff_lt.mpr hlt, compare_lt_iff_lt.mpr (h.mul_zpow_lt h' (.inl hlt))]
    rfl
  · rw [compare_eq_iff_eq.mpr rfl, Ordering.eq_then]
    rcases lt_trichotomy m m' with hlt | rfl | hgt
    · rw [compare_lt_iff_lt.mpr hlt, compare_lt_iff_lt.mpr (h.mul_zpow_lt h' (.inr ⟨rfl, hlt⟩))]
    · rw [compare_eq_iff_eq.mpr rfl, compare_eq_iff_eq.mpr rfl]
    · rw [compare_gt_iff_gt.mpr hgt, compare_gt_iff_gt.mpr (h'.mul_zpow_lt h (.inr ⟨rfl, hgt⟩))]
  · rw [compare_gt_iff_gt.mpr hgt, compare_gt_iff_gt.mpr (h'.mul_zpow_lt h (.inl hgt))]
    rfl

theorem compare_neg_neg (a b : ℚ) : compare (-a) (-b) = (compare a b).swap := by
  rcases lt_trichotomy a b with hlt | rfl | hgt
  · rw [compare_lt_iff_lt.mpr hlt, compare_gt_iff_gt.mpr (neg_lt_neg hlt)]
    rfl
  · rw [compare_eq_iff_eq.mpr rfl, compare_eq_iff_eq.mpr rfl]
    rfl
  · rw [compare_gt_iff_gt.mpr hgt, compare_lt_iff_lt.mpr (neg_lt_neg hgt)]
    rfl

theorem unpackedValue_zero (sign : Sign) : unpackedValue (.zero sign) = 0 := rfl

theorem unpackedValue_pos {m : Nat} {e : Int} (h : 0 < m) :
    0 < unpackedValue (.finite .positive m e h) := by
  simp only [unpackedValue, Sign.apply]
  exact mul_pos (by exact_mod_cast h) (two_zpow_pos e)

theorem unpackedValue_neg {m : Nat} {e : Int} (h : 0 < m) :
    unpackedValue (.finite .negative m e h) < 0 := by
  simp only [unpackedValue, Sign.apply, Int.cast_neg, Int.cast_natCast, neg_mul, Left.neg_neg_iff]
  exact mul_pos (by exact_mod_cast h) (two_zpow_pos e)

/-- Unpacked doubles compare as their values do. -/
theorem compare_unpacked {a b : UnpackedFloat} (ha : Number a) (hb : Number b) :
    a.compare b = some (compare (unpackedValue a) (unpackedValue b)) := by
  cases a with
  | infinity s => exact absurd ha id
  | notANumber => exact absurd ha id
  | zero s =>
    cases b with
    | infinity s => exact absurd hb id
    | notANumber => exact absurd hb id
    | zero s => rw [UnpackedFloat.compare, unpackedValue_zero, unpackedValue_zero, compare_eq_iff_eq.mpr rfl]
    | finite s m e h =>
      cases s with
      | negative => rw [UnpackedFloat.compare, unpackedValue_zero, compare_gt_iff_gt.mpr (unpackedValue_neg h)]
      | positive => rw [UnpackedFloat.compare, unpackedValue_zero, compare_lt_iff_lt.mpr (unpackedValue_pos h)]
  | finite s m e h =>
    cases b with
    | infinity s => exact absurd hb id
    | notANumber => exact absurd hb id
    | zero s' =>
      cases s with
      | negative => rw [UnpackedFloat.compare, unpackedValue_zero, compare_lt_iff_lt.mpr (unpackedValue_neg h)]
      | positive => rw [UnpackedFloat.compare, unpackedValue_zero, compare_gt_iff_gt.mpr (unpackedValue_pos h)]
    | finite s' m' e' h' =>
      have hcompare := Canonical.compare_eq ha hb
      cases s with
      | negative =>
        cases s' with
        | negative =>
          rw [UnpackedFloat.compare, hcompare]
          simp only [unpackedValue, Sign.apply, Int.cast_neg, Int.cast_natCast, neg_mul,
            compare_neg_neg]
        | positive =>
          rw [UnpackedFloat.compare,
            compare_lt_iff_lt.mpr ((unpackedValue_neg h).trans (unpackedValue_pos h'))]
      | positive =>
        cases s' with
        | negative =>
          rw [UnpackedFloat.compare,
            compare_gt_iff_gt.mpr ((unpackedValue_neg h').trans (unpackedValue_pos h))]
        | positive =>
          rw [UnpackedFloat.compare, hcompare]
          simp only [unpackedValue, Sign.apply, Int.cast_natCast]

/-! ## Packing -/

/-- The significand of a normal number, with its leading bit. -/
theorem leading_append_bounds (v : BitVec 52) :
    2 ^ 52 ≤ (1#1 ++ v).toNat ∧ (1#1 ++ v).toNat < 2 ^ 53 := by
  have hlt := (1#1 ++ v).isLt
  refine ⟨?_, hlt⟩
  rw [BitVec.toNat_append, ← Nat.shiftLeft_add_eq_or_of_lt v.isLt, Nat.shiftLeft_eq]
  simp

/-- What is unpacked is infinite, no number, or a number in the right form. -/
theorem unpack_cases (b : BitVec Format.binary64.numBits) :
    (∃ sign, unpack .binary64 b = .infinity sign) ∨ unpack .binary64 b = .notANumber ∨
      Number (unpack .binary64 b) := by
  rw [unpack]
  simp only [show Format.binary64.exponentBias = 1023 from rfl]
  have hbound : (unpackExponent b).toNat < 2048 := (unpackExponent b).isLt
  split
  · split
    · exact .inl ⟨_, rfl⟩
    · exact .inr (.inl rfl)
  · rename_i hones
    right; right
    split
    · rename_i hzero
      split
      · exact trivial
      · have hlt : (unpackMantissa b).toNat < 2 ^ 52 := (unpackMantissa b).isLt
        have hexponent : (unpackExponent b).toNat = 0 := congrArg BitVec.toNat hzero
        exact ⟨by omega, by omega, by omega, .inl (by omega)⟩
    · rename_i hzero
      obtain ⟨hlow, hhigh⟩ := leading_append_bounds (unpackMantissa b)
      have hpos : (unpackExponent b).toNat ≠ 0 := fun h => hzero (BitVec.eq_of_toNat_eq h)
      have hlast : (unpackExponent b).toNat ≠ 2047 := fun h => hones (BitVec.eq_of_toNat_eq h)
      exact ⟨hhigh, by omega, by omega, .inr hlow⟩

theorem number_unpack {x : Float.Model} (h : x.isFinite = true) : Number x.unpack := by
  rcases unpack_cases x.toBits.toBitVec with ⟨sign, heq⟩ | heq | hnumber
  · rw [Float.Model.isFinite, Float.Model.unpack, heq] at h
    exact absurd h Bool.false_ne_true
  · rw [Float.Model.isFinite, Float.Model.unpack, heq] at h
    exact absurd h Bool.false_ne_true
  · exact hnumber

/-- A significand of at most 52 bits with the least exponent is packed without loss. -/
theorem unpack_pack_subnormal {sign : Sign} {m : Nat} (hshort : m < 2 ^ 52) (hpos : 0 < m) :
    (Float.Model.pack (.finite sign m (-1074) hpos)).unpack = .finite sign m (-1074) hpos := by
  have hlog : m.log2 < 52 := (Nat.log2_lt (Nat.ne_of_gt hpos)).mpr hshort
  have hpack : pack .binary64 (.finite sign m (-1074) hpos) =
      packComponents .binary64 sign 0#11 (BitVec.ofNat 52 m) := by
    rw [pack]
    simp only [show Format.binary64.exponentBias = 1023 from rfl,
      show Format.binary64.mantissaBits = 53 from rfl]
    rw [if_neg (by omega), if_neg (by omega)]
  have hmantissa : (BitVec.ofNat 52 m).toNat = m := by
    rw [BitVec.toNat_ofNat, Nat.mod_eq_of_lt hshort]
  have hzero : BitVec.ofNat 52 m ≠ 0#52 := fun h => by
    rw [h] at hmantissa
    exact Nat.ne_of_gt hpos hmantissa.symm
  change unpack .binary64 (pack .binary64 (.finite sign m (-1074) hpos)) = _
  rw [hpack, unpack]
  simp only [unpackMantissa_packComponents, unpackExponent_packComponents, unpackSign_packComponents]
  rw [if_neg (by decide), if_pos trivial, dif_neg hzero, finite.injEq, hmantissa]
  exact ⟨by cases sign <;> rfl, rfl, rfl⟩

/-- Numbers in the right form are packed without loss. -/
theorem unpack_pack_of_number {u : UnpackedFloat} (h : Number u) : (Float.Model.pack u).unpack = u := by
  cases u with
  | infinity sign => exact absurd h id
  | notANumber => exact absurd h id
  | zero sign => cases sign <;> rfl
  | finite sign m e hpos =>
    by_cases hlog : m.log2 = 52
    · exact unpack_pack_normal hlog h.low h.high hpos
    · -- a subnormal number has the least exponent and at most 52 bits
      have hshort : m < 2 ^ 52 := by
        by_contra hlong
        exact hlog ((Nat.log2_eq_iff (Nat.ne_of_gt hpos)).mpr ⟨Nat.le_of_not_lt hlong, h.lt⟩)
      obtain rfl : e = -1074 := h.full.resolve_right (by omega)
      exact unpack_pack_subnormal hshort hpos

/-! ## Doubles -/

/-- The rational number that a double stands for; zero where it is infinite or a NaN. -/
def value (x : Float) : ℚ := unpackedValue x.toModel.unpack

/-- What a double is unpacked to, when it is finite. -/
theorem number_of_isFinite {x : Float} (h : x.isFinite = true) : Number x.toModel.unpack :=
  number_unpack h

variable {x y : Float}

theorem compare_eq_value (hx : x.isFinite = true) (hy : y.isFinite = true) :
    x.toModel.compare y.toModel = some (compare (value x) (value y)) :=
  compare_unpacked (number_of_isFinite hx) (number_of_isFinite hy)

/-- Finite doubles are ordered as their values. -/
theorem le_iff_value (hx : x.isFinite = true) (hy : y.isFinite = true) : x ≤ y ↔ value x ≤ value y := by
  have hcompare := compare_eq_value hx hy
  change decide ((x.toModel.compare y.toModel).any (·.isLE) = true) = true ↔ _
  rw [decide_eq_true_iff, hcompare, Option.any_some, ← compare_le_iff_le, Ordering.isLE_iff_ne_gt]

theorem lt_iff_value (hx : x.isFinite = true) (hy : y.isFinite = true) : x < y ↔ value x < value y := by
  have hcompare := compare_eq_value hx hy
  change decide ((x.toModel.compare y.toModel == some .lt) = true) = true ↔ _
  rw [decide_eq_true_iff, hcompare, ← compare_lt_iff_lt]
  simp

theorem beq_iff_value (hx : x.isFinite = true) (hy : y.isFinite = true) :
    (x == y) = true ↔ value x = value y := by
  have hcompare := compare_eq_value hx hy
  change (x.toModel.compare y.toModel == some .eq) = true ↔ _
  rw [hcompare, ← compare_eq_iff_eq]
  simp

/-- Any number is less than infinity. -/
theorem isFinite_lt_infinity {x : Float} (h : x.isFinite = true) : x < 1.0 / 0.0 := by
  have hinfinity : (1.0 / 0.0 : Float) = .ofModel (.pack (.infinity .positive)) := by decide
  have hnumber := number_of_isFinite h
  rw [hinfinity]
  change decide ((x.toModel.compare (Float.Model.pack (.infinity .positive)) == some .lt) = true) = true
  rw [decide_eq_true_iff, Float.Model.compare,
    show (Float.Model.pack (.infinity .positive)).unpack = .infinity .positive from rfl]
  generalize x.toModel.unpack = u at hnumber
  cases u with
  | infinity sign => exact absurd hnumber id
  | notANumber => exact absurd hnumber id
  | zero sign => rfl
  | finite sign m e hpos => cases sign <;> rfl

/-- What stands for a number other than zero is finite. -/
theorem isFinite_of_value_ne_zero {x : Float} (h : value x ≠ 0) : x.isFinite = true := by
  rcases unpack_cases x.toModel.toBits.toBitVec with ⟨sign, heq⟩ | heq | hnumber
  · refine absurd ?_ h
    rw [value, Float.Model.unpack, heq]
    rfl
  · refine absurd ?_ h
    rw [value, Float.Model.unpack, heq]
    rfl
  · change Float.Model.isFinite x.toModel = true
    rw [Float.Model.isFinite, Float.Model.unpack]
    generalize Float.Model.UnpackedFloat.unpack .binary64 x.toModel.toBits.toBitVec = u at hnumber
    cases u with
    | infinity sign => exact absurd hnumber id
    | notANumber => exact absurd hnumber id
    | zero sign => rfl
    | finite sign m e hpos => rfl

end PackedGraph
