import PackedGraph.Proofs.Numeric.Quotients

/-!
# Changing signs

Keys of scores are scores times one or times minus one.  Both products are exact: a double times one is
the double again, and times minus one it changes its sign only, so doing it twice changes nothing.

Main statements: `times_one`, `times_minus_one` and `value_times_minus_one`.
-/

namespace PackedGraph

open Float.Model (Format totalExponent UnpackedFloat)
open Float.Model.UnpackedFloat

/-! ## Rounding what is exact -/

/-- A number in the right form has the exponent that rounding aims at. -/
theorem Canonical.targetExponent {m : Nat} {e : Int} (h : Canonical m e) (hpos : 0 < m) (k : Nat) :
    Format.binary64.targetExponent (totalExponent (m * 2 ^ k) (e - k)) = e := by
  rw [totalExponent, log2_mul_two_pow (Nat.ne_of_gt hpos), Format.targetExponent,
    show Format.binary64.minExponent = -1074 from rfl, show Format.binary64.mantissaBits = 53 from rfl]
  have hlow := h.low
  have hshort : m.log2 < 53 := (Nat.log2_lt (Nat.ne_of_gt hpos)).mpr h.lt
  rcases h.full with rfl | hfull
  · omega
  · have hlong : 52 ≤ m.log2 := (Nat.le_log2 (Nat.ne_of_gt hpos)).mpr hfull
    omega

theorem Canonical.shiftToTargetExponent {m : Nat} {e : Int} (h : Canonical m e) (hpos : 0 < m) (k : Nat) :
    shiftToTargetExponent .binary64 (m * 2 ^ k) (e - k) .exact = (⟨m, false, false⟩, e) := by
  rw [UnpackedFloat.shiftToTargetExponent, h.targetExponent hpos, shiftToExponent,
    show (e - (e - (k : Int))).toNat = k by omega]
  refine Prod.ext ?_ ?_
  · exact shiftRight_exact m k
  · simp only
    omega

/-- Zeros behind a significand are rounded away. -/
theorem Canonical.roundWithAccuracy {m : Nat} {e : Int} (h : Canonical m e) (hpos : 0 < m) (k : Nat)
    (sign : Sign) :
    roundWithAccuracy .binary64 sign (m * 2 ^ k) (e - k) .exact = .finite sign m e hpos := by
  have hrounded : (ExtendedMantissa.mk m false false).roundedMantissa = m := rfl
  have hagain := h.shiftToTargetExponent hpos 0
  rw [Nat.pow_zero, Nat.mul_one, Nat.cast_zero, sub_zero] at hagain
  simp only [UnpackedFloat.roundWithAccuracy, h.shiftToTargetExponent hpos k, hrounded, hagain]
  rw [dif_neg (Nat.ne_of_gt hpos)]

/-! ## Products with one and with minus one -/

/-- A number times one with a sign is the number with a sign. -/
theorem mul_unit {u : UnpackedFloat} (h : Number u) (sign : Sign) :
    mul .binary64 u (.finite sign (2 ^ 52) (-52) (by decide)) =
      match u with
      | .zero s => .zero (s * sign)
      | .finite s m e hpos => .finite (s * sign) m e hpos
      | other => other := by
  cases u with
  | infinity s => exact absurd h id
  | notANumber => exact absurd h id
  | zero s => rfl
  | finite s m e hpos =>
    have hround := Canonical.roundWithAccuracy h hpos 52 (s * sign)
    exact hround

/-- The significand and the exponent of one and of minus one. -/
theorem canonical_unit : Canonical (2 ^ 52) (-52) := ⟨by decide, by decide, by decide, .inr (le_refl _)⟩

theorem unpack_one : (1 : Float).toModel.unpack = .finite .positive (2 ^ 52) (-52) (by decide) := by
  have hone : (1 : Float) = .ofModel (.pack (whole 1 Nat.one_ne_zero)) := by
    rw [← natToFloat_eq Nat.one_ne_zero (by decide)]
    decide
  have hwhole : whole 1 Nat.one_ne_zero = .finite .positive (2 ^ 52) (-52) (by decide) := by
    rw [whole, finite.injEq]
    exact ⟨rfl, by decide, by decide⟩
  rw [hone, hwhole]
  exact @unpack_pack_of_number (.finite .positive (2 ^ 52) (-52) (by decide)) canonical_unit

theorem unpack_minus_one : (-1 : Float).toModel.unpack = .finite .negative (2 ^ 52) (-52) (by decide) := by
  change (Float.Model.pack (neg (1 : Float).toModel.unpack)).unpack = _
  rw [unpack_one]
  exact @unpack_pack_of_number (.finite .negative (2 ^ 52) (-52) (by decide)) canonical_unit

variable {x y : Float}

theorem times_one (h : Packed x) : x * 1 = x := by
  obtain ⟨u, hu, rfl⟩ := h
  change Float.ofModel (.pack (mul .binary64 (Float.Model.pack u).unpack (1 : Float).toModel.unpack)) = _
  rw [unpack_pack_of_number hu, unpack_one, mul_unit hu]
  cases u with
  | infinity s => exact absurd hu id
  | notANumber => exact absurd hu id
  | zero s => cases s <;> rfl
  | finite s m e hpos => cases s <;> rfl

/-- The product with minus one is a number with the other sign. -/
theorem times_minus_one_eq {u : UnpackedFloat} (h : Number u) :
    Float.ofModel (.pack u) * -1 = .ofModel (.pack (neg u)) := by
  change Float.ofModel (.pack (mul .binary64 (Float.Model.pack u).unpack (-1 : Float).toModel.unpack)) = _
  rw [unpack_pack_of_number h, unpack_minus_one, mul_unit h]
  cases u with
  | infinity s => exact absurd h id
  | notANumber => exact absurd h id
  | zero s => cases s <;> rfl
  | finite s m e hpos => cases s <;> rfl

theorem number_neg {u : UnpackedFloat} (h : Number u) : Number (neg u) := by
  cases u with
  | infinity s => exact absurd h id
  | notANumber => exact absurd h id
  | zero s => trivial
  | finite s m e hpos => exact h

theorem packed_times_minus_one (h : Packed x) : Packed (x * -1) := by
  obtain ⟨u, hu, rfl⟩ := h
  exact ⟨neg u, number_neg hu, times_minus_one_eq hu⟩

/-- Changing the sign twice changes nothing. -/
theorem times_minus_one (h : Packed x) : x * -1 * -1 = x := by
  obtain ⟨u, hu, rfl⟩ := h
  rw [times_minus_one_eq hu, times_minus_one_eq (number_neg hu)]
  cases u with
  | infinity s => exact absurd hu id
  | notANumber => exact absurd hu id
  | zero s => cases s <;> rfl
  | finite s m e hpos => cases s <;> rfl

theorem value_times_minus_one (h : Packed x) : value (x * -1) = -value x := by
  obtain ⟨u, hu, rfl⟩ := h
  rw [times_minus_one_eq hu, (value_ofModel_pack (number_neg hu)).2, (value_ofModel_pack hu).2]
  cases u with
  | infinity s => exact absurd hu id
  | notANumber => exact absurd hu id
  | zero s => simp [neg, unpackedValue]
  | finite s m e hpos =>
    cases s with
    | positive => simp [neg, unpackedValue, Sign.apply]
    | negative => simp [neg, unpackedValue, Sign.apply]

end PackedGraph
