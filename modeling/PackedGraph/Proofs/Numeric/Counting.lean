import Mathlib.Algebra.GroupWithZero.Nat
import Mathlib.Data.Nat.Basic
import PackedGraph.Numeric.Binary64

/-!
# Counting in doubles

A double has 53 significant bits, so every natural number up to `2 ^ 53` is one, and adding one to a
number below `2 ^ 53` is exact.  `2 ^ 53 + 1` lies half way between two doubles and is rounded to
`2 ^ 53`: counting stops there.

Main statement: `natToFloat_add_one`.
-/

namespace PackedGraph

open Float.Model (Format totalExponent UnpackedFloat)
open Float.Model.UnpackedFloat

/-- Up to this number, doubles count by ones. -/
def largestCount : Nat := 9007199254740992

/-! ## Exact shifts -/

theorem log2_mul_two_pow {n : Nat} (hn : n ≠ 0) (k : Nat) : (n * 2 ^ k).log2 = n.log2 + k := by
  have hpos : n * 2 ^ k ≠ 0 := Nat.mul_ne_zero hn (Nat.ne_of_gt (Nat.two_pow_pos k))
  rw [Nat.log2_eq_iff hpos, Nat.add_right_comm, Nat.pow_add, Nat.pow_add _ (n.log2 + 1)]
  exact ⟨Nat.mul_le_mul_right _ (Nat.log2_self_le hn),
    Nat.mul_lt_mul_of_pos_right Nat.lt_log2_self (Nat.two_pow_pos k)⟩

/-- Shifting zeros out loses nothing. -/
theorem shiftRight_exact (m k : Nat) :
    ExtendedMantissa.mk (m * 2 ^ k) false false >>> k = ⟨m, false, false⟩ := by
  change Nat.repeat ExtendedMantissa.shiftRightOne k _ = _
  induction k generalizing m with
  | zero => rw [Nat.pow_zero, Nat.mul_one]; rfl
  | succ k ih =>
    rw [Nat.pow_succ', ← Nat.mul_assoc, Nat.repeat, ih, ExtendedMantissa.shiftRightOne]
    simp

/-! ## Whole numbers -/

/-- The exponent of a whole number is minus this. -/
def wholeShift (n : Nat) : Nat := 52 - n.log2

/-- The significand of a whole number, which has 53 bits. -/
def wholeSignificand (n : Nat) : Nat := n * 2 ^ wholeShift n

theorem log2_le_of_lt {n : Nat} (hn : n ≠ 0) (hlt : n < largestCount) : n.log2 ≤ 52 := by
  have : n.log2 < 53 := (Nat.log2_lt hn).mpr hlt
  omega

theorem log2_wholeSignificand {n : Nat} (hn : n ≠ 0) (hlt : n < largestCount) :
    (wholeSignificand n).log2 = 52 := by
  have := log2_le_of_lt hn hlt
  rw [wholeSignificand, log2_mul_two_pow hn, wholeShift]
  omega

theorem wholeSignificand_pos {n : Nat} (hn : n ≠ 0) : 0 < wholeSignificand n :=
  Nat.mul_pos (Nat.pos_of_ne_zero hn) (Nat.two_pow_pos _)

/-- A whole number as a significand of 53 bits and an exponent. -/
def whole (n : Nat) (hn : n ≠ 0) : UnpackedFloat :=
  .finite .positive (wholeSignificand n) (-wholeShift n) (wholeSignificand_pos hn)

theorem targetExponent_whole {n : Nat} (hn : n ≠ 0) (hlt : n < largestCount) (k : Nat) :
    Format.binary64.targetExponent (totalExponent (n * 2 ^ k) (-k)) = -(wholeShift n : Int) := by
  have := log2_le_of_lt hn hlt
  rw [totalExponent, log2_mul_two_pow hn, Format.targetExponent, wholeShift,
    show Format.binary64.minExponent = -1074 from rfl, show Format.binary64.mantissaBits = 53 from rfl]
  omega

theorem shiftToTargetExponent_whole {n : Nat} (hn : n ≠ 0) (hlt : n < largestCount) {k : Nat}
    (hk : wholeShift n ≤ k) :
    shiftToTargetExponent .binary64 (n * 2 ^ k) (-k) .exact =
      (⟨wholeSignificand n, false, false⟩, -(wholeShift n : Int)) := by
  rw [shiftToTargetExponent, targetExponent_whole hn hlt, shiftToExponent,
    show (-(wholeShift n : Int) - -(k : Int)).toNat = k - wholeShift n by omega]
  refine Prod.ext ?_ (by simp only; omega)
  have hsplit : n * 2 ^ k = wholeSignificand n * 2 ^ (k - wholeShift n) := by
    rw [wholeSignificand, Nat.mul_assoc, ← Nat.pow_add, Nat.add_sub_cancel' hk]
  rw [hsplit]
  exact shiftRight_exact _ _

/-- A whole number is not changed by rounding, whatever the exponent it is given with. -/
theorem round_whole {n : Nat} (hn : n ≠ 0) (hlt : n < largestCount) (k : Nat) :
    UnpackedFloat.round .binary64 .positive (n * 2 ^ k) (-k) = whole n hn := by
  rw [UnpackedFloat.round, targetExponent_whole hn hlt]
  -- Too few bits are filled up with zeros; too many end with zeros.
  obtain ⟨j, hj, hfilled⟩ : ∃ j : Nat, wholeShift n ≤ j ∧
      decreaseExponent (n * 2 ^ k) (-k) (-wholeShift n) = (n * 2 ^ j, -(j : Int)) := by
    refine ⟨max k (wholeShift n), Nat.le_max_right _ _, ?_⟩
    rw [decreaseExponent,
      show (-(k : Int) - -(wholeShift n : Int)).toNat = wholeShift n - k by omega,
      Nat.shiftLeft_eq, Nat.mul_assoc, ← Nat.pow_add,
      show k + (wholeShift n - k) = max k (wholeShift n) by omega]
    exact Prod.ext rfl (by simp only; omega)
  rw [hfilled]
  have hrounded : (ExtendedMantissa.mk (wholeSignificand n) false false).roundedMantissa =
      wholeSignificand n := rfl
  have hagain := shiftToTargetExponent_whole hn hlt (Nat.le_refl _)
  rw [← wholeSignificand] at hagain
  delta roundWithAccuracy
  dsimp only
  rw [shiftToTargetExponent_whole hn hlt hj]
  dsimp only
  rw [hrounded, hagain]
  exact dif_neg (Nat.ne_of_gt (wholeSignificand_pos hn))

/-! ## Packing and unpacking -/

theorem unpackSign_packComponents {spec : Format} {sign : Sign}
    {exponent : BitVec spec.exponentBits} {mantissa : BitVec spec.mantissaBitsWithoutImplicit} :
    unpackSign (packComponents spec sign exponent mantissa) = sign.toBitVec := by
  ext i hi
  obtain rfl : i = 0 := by omega
  have hfront :
      ¬ spec.mantissaBitsWithoutImplicit + spec.exponentBits < spec.mantissaBitsWithoutImplicit := by
    omega
  delta unpackSign packComponents
  simp [BitVec.getLsbD_append, hfront, BitVec.getLsbD_eq_getElem, BitVec.getElem_append]

/-- A significand of 53 bits is its leading bit and the 52 bits that are packed. -/
theorem leading_append_toNat {m : Nat} (h : m.log2 = 52) :
    (1#1 ++ BitVec.ofNat 52 m).toNat = m := by
  have hm : m ≠ 0 := by
    rintro rfl
    exact absurd h (by decide)
  obtain ⟨hle, hlt⟩ := (Nat.log2_eq_iff hm).mp h
  rw [BitVec.toNat_append, BitVec.toNat_ofNat, BitVec.toNat_ofNat,
    ← Nat.shiftLeft_add_eq_or_of_lt (Nat.mod_lt _ (by decide))]
  change 1 <<< 52 + m % 2 ^ 52 = m
  rw [Nat.shiftLeft_eq]
  omega

/-- A significand of 53 bits with an exponent in range is packed without loss. -/
theorem unpack_pack_normal {sign : Sign} {m : Nat} {e : Int} (hlog : m.log2 = 52) (hlow : -1074 ≤ e)
    (hhigh : e ≤ 971) (hpos : 0 < m) :
    (Float.Model.pack (.finite sign m e hpos)).unpack = .finite sign m e hpos := by
  have hbits := leading_append_toNat hlog
  obtain ⟨biased, hbiased, hone, hlast⟩ : ∃ biased : Nat, e = (biased : Int) - 1075 ∧ 1 ≤ biased ∧
      biased ≤ 2046 := ⟨(e + 1075).toNat, by omega, by omega, by omega⟩
  have hpack : pack .binary64 (.finite sign m e hpos) =
      packComponents .binary64 sign (BitVec.ofNat _ biased) (BitVec.ofNat _ m) := by
    delta pack
    simp only [hlog, show Format.binary64.exponentBias = 1023 from rfl,
      show Format.binary64.mantissaBits = 53 from rfl]
    rw [show (e + (1023 : Nat) + (52 : Nat)).toNat = biased by omega, if_neg (by omega),
      if_pos trivial]
  have hexponent : (BitVec.ofNat 11 biased).toNat = biased := by
    rw [BitVec.toNat_ofNat, Nat.mod_eq_of_lt (by omega)]
  have hzero : BitVec.ofNat 11 biased ≠ 0#11 := fun h => by
    rw [h] at hexponent
    exact absurd hexponent (by simp; omega)
  have hones : BitVec.ofNat 11 biased ≠ -1#11 := fun h => by
    rw [h] at hexponent
    exact absurd hexponent (by simp; omega)
  change unpack .binary64 (pack .binary64 (.finite sign m e hpos)) = _
  rw [hpack]
  delta unpack
  dsimp only
  rw [if_neg (unpackExponent_packComponents ▸ hones), if_neg (unpackExponent_packComponents ▸ hzero),
    finite.injEq, unpackMantissa_packComponents, unpackExponent_packComponents, unpackSign_packComponents,
    hexponent, show Format.binary64.exponentBias = 1023 from rfl]
  exact ⟨by cases sign <;> rfl, hbits, by omega⟩

theorem unpack_pack_whole {n : Nat} (hn : n ≠ 0) (hlt : n < largestCount) :
    (Float.Model.pack (whole n hn)).unpack = whole n hn := by
  have hshift : wholeShift n ≤ 52 := Nat.sub_le _ _
  exact unpack_pack_normal (log2_wholeSignificand hn hlt) (by omega) (by omega) _

/-! ## Counting -/

theorem natToFloat_eq {n : Nat} (hn : n ≠ 0) (hlt : n < largestCount) :
    natToFloat n = .ofModel (.pack (whole n hn)) := by
  have hword : (UInt64.ofNat n).toNat = n :=
    UInt64.toNat_ofNat_of_lt' (Nat.lt_trans hlt (by decide))
  have hround := round_whole hn hlt 0
  rw [Nat.pow_zero, Nat.mul_one] at hround
  rw [← hround]
  change Float.ofModel
    (.pack (UnpackedFloat.normalize .binary64 ((UInt64.ofNat n).toNat : Int) 0 .positive)) = _
  rw [hword, UnpackedFloat.normalize, show compare (n : Int) 0 = .gt from by
    rw [Int.compare_eq_gt]; omega]
  rfl

/-- The sum of a whole number and one, before it is packed. -/
theorem add_whole_one {n : Nat} (hn : n ≠ 0) (hlt : n + 1 < largestCount) :
    add .binary64 (whole n hn) (whole 1 Nat.one_ne_zero) = whole (n + 1) (Nat.succ_ne_zero n) := by
  have hshift : wholeShift n ≤ 52 := Nat.sub_le _ _
  -- The finer of both exponents is that of one, for every `n`.
  have hmin : min (-(wholeShift n : Int)) (-(wholeShift 1 : Int)) = -(52 : Nat) := by
    rw [show wholeShift 1 = 52 by decide]
    omega
  have hsum : ((n * 2 ^ wholeShift n * 2 ^ (52 - wholeShift n) : Nat) : Int) +
      ((wholeSignificand 1 * 2 ^ 0 : Nat) : Int) = ((n + 1) * 2 ^ 52 : Nat) := by
    rw [Nat.mul_assoc, ← Nat.pow_add, Nat.add_sub_cancel' hshift,
      show wholeSignificand 1 * 2 ^ 0 = 2 ^ 52 by decide, ← Int.natCast_add, Nat.succ_mul]
  rw [whole, whole]
  delta add
  dsimp only
  simp only [hmin, decreaseExponent, Sign.apply, Nat.shiftLeft_eq]
  rw [show (-(wholeShift n : Int) - -(52 : Nat)).toNat = 52 - wholeShift n by omega,
    show (-(wholeShift 1 : Int) - -(52 : Nat)).toNat = 0 by decide, wholeSignificand, hsum,
    UnpackedFloat.normalize,
    show compare (((n + 1) * 2 ^ 52 : Nat) : Int) 0 = .gt from by
      rw [Int.compare_eq_gt]; omega]
  exact round_whole (Nat.succ_ne_zero n) hlt 52

/-- Counting goes on by ones up to `2 ^ 53`, where it stops. -/
theorem natToFloat_add_one (n : Nat) :
    natToFloat (min n largestCount) + 1 = natToFloat (min (n + 1) largestCount) := by
  have hone : (1 : Float) = natToFloat 1 := by decide
  rcases Nat.eq_zero_or_pos n with rfl | hpos
  · decide
  rcases Nat.lt_trichotomy (n + 1) largestCount with hlt | heq | hgt
  · have hn := Nat.ne_of_gt hpos
    have hn' : n < largestCount := Nat.lt_of_succ_lt hlt
    rw [Nat.min_eq_left (Nat.le_of_lt hlt), Nat.min_eq_left (Nat.le_of_lt hn'), hone,
      natToFloat_eq hn hn', natToFloat_eq Nat.one_ne_zero (by decide), natToFloat_eq _ hlt]
    change Float.ofModel (.pack (add .binary64 _ _)) = _
    rw [unpack_pack_whole hn hn', unpack_pack_whole Nat.one_ne_zero (by decide),
      add_whole_one hn hlt]
  · rw [heq, show n = 9007199254740991 by rw [largestCount] at heq; omega]
    decide
  · rw [Nat.min_eq_right (Nat.le_of_lt_succ hgt), Nat.min_eq_right (Nat.le_of_lt hgt)]
    decide

end PackedGraph
