import Mathlib.Algebra.Order.Field.Basic
import Mathlib.Tactic.FieldSimp
import PackedGraph.Proofs.Numeric.Value

/-!
# Quotients of whole numbers

Rounding keeps the order of numbers, so a whole number below `2 ^ 64` becomes no larger than a larger one
when both are turned into doubles, and a quotient of two doubles becomes no more than one exactly if the first
is not larger.  The bits that rounding looks at stand for the exact number: `Stands` says which one,
and shifting them halves it.

Main statements: `Nearest.le`, `value_natToFloat_le` and `quotient_iff`.
-/

namespace PackedGraph

open Float.Model (Format totalExponent UnpackedFloat)
open Float.Model.UnpackedFloat

/-! ## The nearest whole number -/

/-- A whole number nearest to a number, and the even one of two. -/
structure Nearest (r : Nat) (x : ℚ) : Prop where
  /-- It is not too small. -/
  le_add : x ≤ r + 1 / 2
  /-- Nor is it too large. -/
  sub_le : (r : ℚ) - 1 / 2 ≤ x
  /-- A number half way below it finds it even. -/
  even_of_eq_sub : x = r - 1 / 2 → r % 2 = 0
  /-- So does one half way above it. -/
  even_of_eq_add : x = r + 1 / 2 → r % 2 = 0

theorem Nearest.self (n : Nat) : Nearest n n :=
  ⟨by linarith, by linarith, fun h => by linarith, fun h => by linarith⟩

/-- Rounding keeps the order. -/
theorem Nearest.le {r r' : Nat} {x x' : ℚ} (h : Nearest r x) (h' : Nearest r' x') (hle : x ≤ x') :
    r ≤ r' := by
  by_contra hlt
  have hgap : (r' : ℚ) + 1 ≤ r := by exact_mod_cast Nat.lt_of_not_le hlt
  have hlow := h.sub_le
  have hhigh := h'.le_add
  -- Two neighbours would both be half way from `x`, and both even.
  have heven : r % 2 = 0 := h.even_of_eq_sub (by linarith)
  have heven' : r' % 2 = 0 := h'.even_of_eq_add (by linarith)
  have hnext : (r : ℚ) = r' + 1 := by linarith
  have : r = r' + 1 := by exact_mod_cast hnext
  omega

/-! ## The bits that rounding looks at -/

/-- The exact number that a significand with its two residual bits may stand for. -/
def Stands (em : ExtendedMantissa) (x : ℚ) : Prop :=
  match em.roundBit, em.stickyBit with
  | false, false => x = em.mantissa
  | false, true => em.mantissa < x ∧ x < em.mantissa + 1 / 2
  | true, false => x = em.mantissa + 1 / 2
  | true, true => em.mantissa + 1 / 2 < x ∧ x < em.mantissa + 1

theorem stands_exact (m : Nat) : Stands ⟨m, false, false⟩ m := rfl

/-- The bits are rounded to a nearest whole number. -/
theorem Stands.nearest {em : ExtendedMantissa} {x : ℚ} (h : Stands em x) :
    Nearest em.roundedMantissa x := by
  obtain ⟨m, roundBit, stickyBit⟩ := em
  cases roundBit <;> cases stickyBit <;>
    simp only [Stands, ExtendedMantissa.roundedMantissa, ExtendedMantissa.accuracy,
      Accuracy.roundToNearestEven] at h ⊢
  case false.false =>
    rw [h]
    exact Nearest.self m
  case false.true =>
    exact ⟨by linarith, by linarith, fun h => by linarith, fun h => by linarith⟩
  case true.false =>
    -- half way: an odd number moves up to the even one
    rcases Nat.mod_two_eq_zero_or_one m with hm | hm
    · rw [hm, Nat.add_zero]
      exact ⟨by linarith, by linarith, fun h => by linarith, fun _ => hm⟩
    · rw [hm]
      have heven : (m + 1) % 2 = 0 := by omega
      exact ⟨by push_cast; linarith, by push_cast; linarith, fun _ => heven, fun _ => heven⟩
  case true.true =>
    refine ⟨by push_cast; linarith, by push_cast; linarith, fun h => ?_, fun h => ?_⟩ <;>
      push_cast at h <;> linarith

/-- A quotient and the accuracy of its fraction stand for the exact quotient. -/
theorem stands_fraction (a : Nat) {b : Nat} (hb : 0 < b) :
    Stands (.ofMantissaAndAccuracy (a / b) (accuracyOfFraction (a % b) b)) ((a : ℚ) / b) := by
  have hpos : (0 : ℚ) < b := by exact_mod_cast hb
  have hsplit : (a : ℚ) / b = (a / b : Nat) + ((a % b : Nat) : ℚ) / b := by
    have hdiv : (a : ℚ) = b * (a / b : Nat) + (a % b : Nat) := by
      exact_mod_cast (Nat.div_add_mod a b).symm
    rw [div_eq_iff hpos.ne', add_mul, div_mul_cancel₀ _ hpos.ne']
    linarith
  have hlt : ((a % b : Nat) : ℚ) < b := by exact_mod_cast Nat.mod_lt a hb
  rw [hsplit, accuracyOfFraction]
  generalize a % b = rest at *
  by_cases hzero : rest = 0
  · rw [if_pos hzero, hzero]
    simp [Stands, ExtendedMantissa.ofMantissaAndAccuracy]
  · have hrest : (0 : ℚ) < rest := by exact_mod_cast Nat.pos_of_ne_zero hzero
    rw [if_neg hzero]
    rcases lt_trichotomy (2 * rest) b with h | h | h
    · have hhalf : (2 : ℚ) * rest < b := by exact_mod_cast h
      have hlow : 0 < (rest : ℚ) / b := div_pos hrest hpos
      have hhigh : (rest : ℚ) / b < 1 / 2 := by
        rw [div_lt_div_iff₀ hpos (by norm_num)]
        linarith
      rw [compare_lt_iff_lt.mpr h]
      simp only [Stands, ExtendedMantissa.ofMantissaAndAccuracy]
      constructor <;> linarith
    · have hhalf : (2 : ℚ) * rest = b := by exact_mod_cast h
      have hmid : (rest : ℚ) / b = 1 / 2 := by
        rw [div_eq_div_iff hpos.ne' (by norm_num)]
        linarith
      rw [compare_eq_iff_eq.mpr h]
      simp only [Stands, ExtendedMantissa.ofMantissaAndAccuracy, hmid]
    · have hhalf : (b : ℚ) < 2 * rest := by exact_mod_cast h
      have hlow : (1 : ℚ) / 2 < rest / b := by
        rw [div_lt_div_iff₀ (by norm_num) hpos]
        linarith
      have hhigh : (rest : ℚ) / b < 1 := by rwa [div_lt_one hpos]
      rw [compare_gt_iff_gt.mpr h]
      simp only [Stands, ExtendedMantissa.ofMantissaAndAccuracy]
      constructor <;> linarith

/-- A shift halves the exact number, and no information that rounding needs is lost. -/
theorem Stands.shiftRightOne {em : ExtendedMantissa} {x : ℚ} (h : Stands em x) :
    Stands em.shiftRightOne (x / 2) := by
  obtain ⟨m, roundBit, stickyBit⟩ := em
  have hsplit : (m : ℚ) = 2 * (m / 2 : Nat) + (m % 2 : Nat) := by
    exact_mod_cast (Nat.div_add_mod m 2).symm
  rcases Nat.mod_two_eq_zero_or_one m with hm | hm
  · have hlast : (m % 2 != 0) = false := by rw [hm]; rfl
    rw [hm, Nat.cast_zero, add_zero] at hsplit
    cases roundBit <;> cases stickyBit <;>
      simp only [Stands, ExtendedMantissa.shiftRightOne, hlast, Bool.or_false, Bool.or_true] at h ⊢
    case false.false => linarith
    all_goals constructor <;> linarith
  · have hlast : (m % 2 != 0) = true := by rw [hm]; rfl
    rw [hm, Nat.cast_one] at hsplit
    cases roundBit <;> cases stickyBit <;>
      simp only [Stands, ExtendedMantissa.shiftRightOne, hlast, Bool.or_false, Bool.or_true] at h ⊢
    case false.false => linarith
    all_goals constructor <;> linarith

theorem Stands.shiftRight {em : ExtendedMantissa} {x : ℚ} (h : Stands em x) (k : Nat) :
    Stands (em >>> k) (x / 2 ^ k) := by
  change Stands (Nat.repeat ExtendedMantissa.shiftRightOne k em) _
  induction k with
  | zero => rwa [pow_zero, div_one]
  | succ k ih =>
    rw [pow_succ, ← div_div]
    exact ih.shiftRightOne

/-- Both residual bits are less than one. -/
theorem Stands.bounds {em : ExtendedMantissa} {x : ℚ} (h : Stands em x) :
    (em.mantissa : ℚ) ≤ x ∧ x < em.mantissa + 1 := by
  obtain ⟨m, roundBit, stickyBit⟩ := em
  cases roundBit <;> cases stickyBit <;> simp only [Stands] at h ⊢ <;> constructor <;> linarith

/-! ## Rounding -/

/-- How many bits more than 53 a significand has. -/
def excess (m : Nat) : Nat := m.log2 - 52

theorem ofMantissaAndAccuracy_mantissa (m : Nat) (accuracy : Accuracy) :
    (ExtendedMantissa.ofMantissaAndAccuracy m accuracy).mantissa = m := by
  rcases accuracy with _ | order
  · rfl
  · cases order <;> rfl

/-- A shift to 53 bits leaves a number of 53 bits. -/
theorem excess_bounds {m : Nat} (hlong : 2 ^ 52 ≤ m) {x : ℚ} (hx : (m : ℚ) ≤ x ∧ x < m + 1) :
    (2 : ℚ) ^ 52 ≤ x / 2 ^ excess m ∧ x / 2 ^ excess m < 2 ^ 53 := by
  have hpos : (0 : ℚ) < 2 ^ excess m := by positivity
  have hne : m ≠ 0 := by
    rintro rfl
    exact absurd hlong (by decide)
  have hlog : 52 ≤ m.log2 := (Nat.le_log2 hne).mpr hlong
  have hlow : 2 ^ 52 * 2 ^ excess m ≤ m := by
    rw [← pow_add, excess, Nat.add_sub_cancel' hlog]
    exact Nat.log2_self_le hne
  have hhigh : m + 1 ≤ 2 ^ 53 * 2 ^ excess m := by
    rw [← pow_add, excess, show 53 + (m.log2 - 52) = m.log2 + 1 by omega]
    exact Nat.lt_log2_self
  have hlow' : (2 : ℚ) ^ 52 * 2 ^ excess m ≤ m := by exact_mod_cast hlow
  have hhigh' : (m : ℚ) + 1 ≤ 2 ^ 53 * 2 ^ excess m := by exact_mod_cast hhigh
  exact ⟨by rw [le_div_iff₀ hpos]; linarith, by rw [div_lt_iff₀ hpos]; linarith⟩

theorem targetExponent_of_long {m : Nat} (hlong : 2 ^ 52 ≤ m) {e : Int} (hlow : -1074 ≤ e) :
    Format.binary64.targetExponent (totalExponent m e) = e + excess m := by
  have hne : m ≠ 0 := by
    rintro rfl
    exact absurd hlong (by decide)
  have hlog : 52 ≤ m.log2 := (Nat.le_log2 hne).mpr hlong
  rw [totalExponent, Format.targetExponent, excess,
    show Format.binary64.minExponent = -1074 from rfl,
    show Format.binary64.mantissaBits = 53 from rfl]
  omega

theorem shiftToTargetExponent_of_long {m : Nat} (hlong : 2 ^ 52 ≤ m) {e : Int} (hlow : -1074 ≤ e)
    (accuracy : Accuracy) :
    shiftToTargetExponent .binary64 m e accuracy =
      (ExtendedMantissa.ofMantissaAndAccuracy m accuracy >>> excess m, e + excess m) := by
  rw [shiftToTargetExponent, targetExponent_of_long hlong hlow, shiftToExponent,
    show (e + excess m - e).toNat = excess m by omega]

/-- A number with at least 53 bits is rounded to a nearest significand of 53 bits. -/
theorem roundWithAccuracy_of_long {m : Nat} (hlong : 2 ^ 52 ≤ m) {e : Int} (hlow : -1074 ≤ e)
    (hhigh : e + excess m < 971) {accuracy : Accuracy} {x : ℚ}
    (hx : Stands (.ofMantissaAndAccuracy m accuracy) x) (sign : Sign) :
    ∃ (M : Nat) (E : Int) (hpos : 0 < M) (r : Nat),
      roundWithAccuracy .binary64 sign m e accuracy = .finite sign M E hpos ∧ Canonical M E ∧
      M.log2 = 52 ∧ (e + excess m ≤ E ∧ E ≤ e + excess m + 1) ∧
      (M : ℚ) * 2 ^ E = r * 2 ^ (e + excess m) ∧ Nearest r (x / 2 ^ excess m) := by
  obtain ⟨hfloor, hceil⟩ := excess_bounds hlong (ofMantissaAndAccuracy_mantissa m accuracy ▸ hx.bounds)
  have hnearest := (hx.shiftRight (excess m)).nearest
  generalize hr : (ExtendedMantissa.ofMantissaAndAccuracy m accuracy >>> excess m).roundedMantissa = r
    at hnearest
  have hrlow : 2 ^ 52 ≤ r := (Nearest.self (2 ^ 52)).le hnearest (by exact_mod_cast hfloor)
  have hrhigh : r ≤ 2 ^ 53 := hnearest.le (Nearest.self (2 ^ 53)) (by exact_mod_cast hceil.le)
  have hround : roundWithAccuracy .binary64 sign m e accuracy =
      if h : (ExtendedMantissa.mk r false false >>> excess r).mantissa = 0 then .zero sign
      else .finite sign (ExtendedMantissa.mk r false false >>> excess r).mantissa
        (e + excess m + excess r) (Nat.pos_of_ne_zero h) := by
    simp only [roundWithAccuracy, shiftToTargetExponent_of_long hlong hlow, hr,
      shiftToTargetExponent_of_long hrlow (e := e + excess m) (by omega)]
    rfl
  rcases Nat.lt_or_eq_of_le hrhigh with hlt | rfl
  · have hlog : r.log2 = 52 := (Nat.log2_eq_iff (by omega)).mpr ⟨hrlow, hlt⟩
    have hexcess : excess r = 0 := by rw [excess, hlog]
    rw [hexcess] at hround
    have hzero : (ExtendedMantissa.mk r false false >>> 0).mantissa = r := rfl
    refine ⟨r, e + excess m, by omega, r, ?_, ⟨hlt, by omega, by omega, .inr hrlow⟩, hlog,
      ⟨by omega, by omega⟩, rfl, hnearest⟩
    rw [hround, dif_neg (by rw [hzero]; omega), finite.injEq]
    exact ⟨rfl, hzero, by omega⟩
  · -- all bits are ones and are rounded up
    have hhalf : (ExtendedMantissa.mk (2 ^ 53) false false >>> excess (2 ^ 53)).mantissa = 2 ^ 52 := by
      decide
    have hexcess : excess (2 ^ 53) = 1 := by decide
    refine ⟨2 ^ 52, e + excess m + 1, by decide, 2 ^ 53, ?_,
      ⟨by decide, by omega, by omega, .inr (le_refl _)⟩, by decide, ⟨by omega, by omega⟩, ?_, hnearest⟩
    · rw [hround, dif_neg (by rw [hhalf]; decide), finite.injEq]
      exact ⟨rfl, hhalf, by omega⟩
    · rw [zpow_add_one₀ (by norm_num)]
      push_cast
      ring

/-! ## Whole numbers as doubles -/

theorem value_ofModel_pack {u : UnpackedFloat} (h : Number u) :
    (Float.ofModel (.pack u)).isFinite = true ∧ value (Float.ofModel (.pack u)) = unpackedValue u := by
  have hunpack := unpack_pack_of_number h
  constructor
  · change (Float.Model.pack u).unpack.isFinite = true
    rw [hunpack]
    cases u with
    | zero sign => rfl
    | finite sign m e hpos => rfl
    | infinity sign => exact absurd h id
    | notANumber => exact absurd h id
  · change unpackedValue (Float.Model.pack u).unpack = _
    rw [hunpack]

/-- A double that is made of a number in the right form. -/
def Packed (x : Float) : Prop := ∃ u, Number u ∧ x = .ofModel (.pack u)

theorem Packed.isFinite {x : Float} (h : Packed x) : x.isFinite = true := by
  obtain ⟨u, hu, rfl⟩ := h
  exact (value_ofModel_pack hu).1

/-- A positive whole number as a double: a significand of 53 bits with an exponent, whose value is the
number itself or, where that has more bits, a nearest multiple of a power of two. -/
theorem natToFloat_cases {n : Nat} (hpos : 0 < n) (hlt : n < 2 ^ 64) :
    ∃ (M : Nat) (E : Int) (hM : 0 < M), natToFloat n = .ofModel (.pack (.finite .positive M E hM)) ∧
      Canonical M E ∧ M.log2 = 52 ∧ (-52 ≤ E ∧ E ≤ 12) ∧
      (n < 2 ^ 53 ∧ (M : ℚ) * 2 ^ E = n ∨
        2 ^ 53 ≤ n ∧ ∃ r : Nat, (M : ℚ) * 2 ^ E = r * 2 ^ excess n ∧ Nearest r (n / 2 ^ excess n)) := by
  rcases Nat.lt_or_ge n largestCount with hshort | hlong
  · have hn := Nat.ne_of_gt hpos
    have hshift : wholeShift n ≤ 52 := Nat.sub_le _ _
    have hlog := log2_wholeSignificand hn hshort
    obtain ⟨hlow, hhigh⟩ := (Nat.log2_eq_iff (Nat.ne_of_gt (wholeSignificand_pos hn))).mp hlog
    refine ⟨wholeSignificand n, -wholeShift n, wholeSignificand_pos hn, natToFloat_eq hn hshort,
      ⟨hhigh, by omega, by omega, .inr hlow⟩, hlog, ⟨by omega, by omega⟩, .inl ⟨hshort, ?_⟩⟩
    rw [wholeSignificand, zpow_neg, zpow_natCast, Nat.cast_mul, Nat.cast_pow, Nat.cast_ofNat,
      mul_assoc, mul_inv_cancel₀ (by positivity), mul_one]
  · have hlong' : 2 ^ 52 ≤ n := Nat.le_trans (by decide) hlong
    have hlog : n.log2 < 64 := (Nat.log2_lt (Nat.ne_of_gt hpos)).mpr hlt
    have hexcess : excess n ≤ 11 := by
      rw [excess]
      omega
    obtain ⟨M, E, hM, r, hround, hcanonical, hlog, hE, hvalue, hnearest⟩ :=
      @roundWithAccuracy_of_long n hlong' 0 (by omega) (by omega) .exact n (stands_exact n) .positive
    refine ⟨M, E, hM, ?_, hcanonical, hlog, ⟨by omega, by omega⟩, .inr ⟨hlong, r, ?_, hnearest⟩⟩
    · have hword : (UInt64.ofNat n).toNat = n := UInt64.toNat_ofNat_of_lt' hlt
      rw [← hround]
      change Float.ofModel
        (.pack (UnpackedFloat.normalize .binary64 ((UInt64.ofNat n).toNat : Int) 0 .positive)) = _
      rw [hword, UnpackedFloat.normalize, show compare (n : Int) 0 = .gt from by
        rw [Int.compare_eq_gt]; omega]
      -- there are enough bits, so the exponent is not decreased
      have hkeep : decreaseExponent n 0 (0 + excess n) = (n, 0) := by
        rw [decreaseExponent, show ((0 : Int) - (0 + excess n)).toNat = 0 by omega]
        rfl
      simp only [Int.toNat_natCast, UnpackedFloat.round, targetExponent_of_long hlong' (e := 0) (by omega),
        hkeep]
    · rw [hvalue, zero_add, zpow_natCast]

theorem value_natToFloat {n : Nat} (hpos : 0 < n) (hlt : n < 2 ^ 64) :
    (natToFloat n).isFinite = true ∧ 0 < value (natToFloat n) ∧
      (n < 2 ^ 53 ∧ value (natToFloat n) = n ∨
        2 ^ 53 ≤ n ∧ ∃ r : Nat, value (natToFloat n) = r * 2 ^ excess n ∧
          Nearest r (n / 2 ^ excess n)) := by
  obtain ⟨M, E, hM, heq, hcanonical, -, -, hvalue⟩ := natToFloat_cases hpos hlt
  obtain ⟨hfinite, hpacked⟩ := @value_ofModel_pack (.finite .positive M E hM) hcanonical
  rw [heq, hpacked]
  refine ⟨hfinite, unpackedValue_pos hM, ?_⟩
  simpa only [unpackedValue, Sign.apply, Int.cast_natCast] using hvalue

/-- Small whole numbers are doubles. -/
theorem value_of_whole {n : Nat} (hpos : 0 < n) (hlt : n < 2 ^ 53) :
    (natToFloat n).isFinite = true ∧ value (natToFloat n) = n := by
  obtain ⟨hfinite, -, ⟨-, hvalue⟩ | ⟨hlong, -⟩⟩ := value_natToFloat hpos (Nat.lt_trans hlt (by decide))
  · exact ⟨hfinite, hvalue⟩
  · exact absurd hlt (Nat.not_lt.mpr hlong)

/-- The order of whole numbers is kept when they become doubles. -/
theorem value_natToFloat_le {m n : Nat} (hpos : 0 < m) (hle : m ≤ n) (hlt : n < 2 ^ 64) :
    value (natToFloat m) ≤ value (natToFloat n) := by
  obtain ⟨-, -, hm⟩ := value_natToFloat hpos (Nat.lt_of_le_of_lt hle hlt)
  obtain ⟨-, -, hn⟩ := value_natToFloat (Nat.lt_of_lt_of_le hpos hle) hlt
  have hcast : (m : ℚ) ≤ n := by exact_mod_cast hle
  rcases hn with ⟨hshort, hn⟩ | ⟨hlong, r, hn, hr⟩
  · rcases hm with ⟨-, hm⟩ | ⟨hlong, -⟩
    · rwa [hm, hn]
    · omega
  · have hpowers : (0 : ℚ) < 2 ^ excess n := by positivity
    have hbounds := @excess_bounds n (Nat.le_trans (by decide) hlong) n ⟨le_refl _, by linarith⟩
    have hrlow : 2 ^ 52 ≤ r := (Nearest.self (2 ^ 52)).le hr (by exact_mod_cast hbounds.1)
    have hrlow' : (2 : ℚ) ^ 52 ≤ r := by exact_mod_cast hrlow
    have hlog : 53 ≤ n.log2 := (Nat.le_log2 (by omega)).mpr hlong
    rcases hm with ⟨hshort, hm⟩ | ⟨hlong', q, hm, hq⟩
    · -- the smaller number has 53 bits at most, and the other is more
      rw [hm, hn]
      calc (m : ℚ) ≤ 2 ^ 52 * 2 ^ 1 := by
            have : (m : ℚ) < 2 ^ 53 := by exact_mod_cast hshort
            linarith
        _ ≤ 2 ^ 52 * 2 ^ excess n :=
            mul_le_mul_of_nonneg_left (pow_le_pow_right₀ (by norm_num) (by rw [excess]; omega))
              (by norm_num)
        _ ≤ r * 2 ^ excess n := mul_le_mul_of_nonneg_right hrlow' hpowers.le
    · rw [hm, hn]
      have hlogs : m.log2 ≤ n.log2 := by
        rw [Nat.le_log2 (by omega)]
        exact Nat.le_trans (Nat.log2_self_le (by omega)) hle
      have hbounds' := @excess_bounds m (Nat.le_trans (by decide) hlong') m ⟨le_refl _, by linarith⟩
      rcases Nat.lt_or_eq_of_le (show excess m ≤ excess n by rw [excess, excess]; omega) with hless | heq
      · -- a shorter number is at most the power of two where the longer ones begin
        have hqhigh : q ≤ 2 ^ 53 := hq.le (Nearest.self (2 ^ 53)) (by exact_mod_cast hbounds'.2.le)
        have hqhigh' : (q : ℚ) ≤ 2 ^ 53 := by exact_mod_cast hqhigh
        calc (q : ℚ) * 2 ^ excess m ≤ 2 ^ 53 * 2 ^ excess m :=
              mul_le_mul_of_nonneg_right hqhigh' (by positivity)
          _ = 2 ^ 52 * 2 ^ (excess m + 1) := by ring
          _ ≤ 2 ^ 52 * 2 ^ excess n :=
              mul_le_mul_of_nonneg_left (pow_le_pow_right₀ (by norm_num) hless) (by norm_num)
          _ ≤ r * 2 ^ excess n := mul_le_mul_of_nonneg_right hrlow' hpowers.le
      · have hmono : q ≤ r := by
          rw [heq] at hq
          exact hq.le hr (div_le_div_of_nonneg_right hcast hpowers.le)
        rw [heq]
        exact mul_le_mul_of_nonneg_right (by exact_mod_cast hmono) hpowers.le

/-! ## Quotients -/

/-- A quotient of significands of 53 bits has 53 bits or one more. -/
theorem divCore_of_long {M₁ M₂ : Nat} {E₁ E₂ : Int} (h₁ : M₁.log2 = 52) (h₂ : M₂.log2 = 52)
    (hE : -1000 ≤ E₁ - E₂) :
    divCore .binary64 M₁ E₁ M₂ E₂ =
      (M₁ * 2 ^ 53 / M₂, E₁ - E₂ - 53, accuracyOfFraction (M₁ * 2 ^ 53 % M₂) M₂) := by
  have htarget : min (E₁ - E₂)
      (Format.binary64.targetExponent (totalExponent M₁ E₁ - totalExponent M₂ E₂)) = E₁ - E₂ - 53 := by
    rw [totalExponent, totalExponent, h₁, h₂, Format.targetExponent,
      show Format.binary64.minExponent = -1074 from rfl,
      show Format.binary64.mantissaBits = 53 from rfl]
    omega
  simp only [divCore, htarget, show (E₁ - E₂ - (E₁ - E₂ - 53)).toNat = 53 by omega, Nat.shiftLeft_eq]

/-- A quotient of positive doubles is finite, and a nearest multiple of a power of two of which the exact
quotient holds `2 ^ 52` at least. -/
theorem quotient_unpacked {M₁ M₂ : Nat} {E₁ E₂ : Int} (hM₁ : 0 < M₁) (hM₂ : 0 < M₂) (h₁ : M₁.log2 = 52)
    (h₂ : M₂.log2 = 52) (hE₁ : -52 ≤ E₁ ∧ E₁ ≤ 12) (hE₂ : -52 ≤ E₂ ∧ E₂ ≤ 12) :
    ∃ (M : Nat) (E : Int) (hpos : 0 < M) (r : Nat) (e : Int),
      div .binary64 (.finite .positive M₁ E₁ hM₁) (.finite .positive M₂ E₂ hM₂) =
        .finite .positive M E hpos ∧ Canonical M E ∧ (M : ℚ) * 2 ^ E = r * 2 ^ e ∧
      Nearest r ((M₁ : ℚ) * 2 ^ E₁ / (M₂ * 2 ^ E₂) * 2 ^ (-e)) ∧
      2 ^ 52 ≤ (M₁ : ℚ) * 2 ^ E₁ / (M₂ * 2 ^ E₂) * 2 ^ (-e) ∧
      (M₁ : ℚ) * 2 ^ E₁ / (M₂ * 2 ^ E₂) * 2 ^ (-e) < 2 ^ 53 := by
  obtain ⟨hlow₁, hhigh₁⟩ := (Nat.log2_eq_iff (Nat.ne_of_gt hM₁)).mp h₁
  obtain ⟨hlow₂, hhigh₂⟩ := (Nat.log2_eq_iff (Nat.ne_of_gt hM₂)).mp h₂
  have hlong : 2 ^ 52 ≤ M₁ * 2 ^ 53 / M₂ := by
    rw [Nat.le_div_iff_mul_le hM₂]
    calc 2 ^ 52 * M₂ ≤ 2 ^ 52 * 2 ^ 53 := Nat.mul_le_mul_left _ hhigh₂.le
      _ ≤ M₁ * 2 ^ 53 := Nat.mul_le_mul_right _ hlow₁
  have hshort : M₁ * 2 ^ 53 / M₂ < 2 ^ 54 := by
    rw [Nat.div_lt_iff_lt_mul hM₂]
    calc M₁ * 2 ^ 53 < 2 ^ 53 * 2 ^ 53 := Nat.mul_lt_mul_of_pos_right hhigh₁ (by decide)
      _ = 2 ^ 54 * 2 ^ 52 := by norm_num
      _ ≤ 2 ^ 54 * M₂ := Nat.mul_le_mul_left _ hlow₂
  have hexcess : excess (M₁ * 2 ^ 53 / M₂) ≤ 1 := by
    have : (M₁ * 2 ^ 53 / M₂).log2 < 54 := (Nat.log2_lt (by omega)).mpr hshort
    rw [excess]
    omega
  have hstands := stands_fraction (M₁ * 2 ^ 53) hM₂
  obtain ⟨M, E, hpos, r, hround, hcanonical, -, -, hvalue, hnearest⟩ :=
    roundWithAccuracy_of_long hlong (e := E₁ - E₂ - 53) (by omega) (by omega) hstands .positive
  have hbounds := excess_bounds hlong (ofMantissaAndAccuracy_mantissa _ _ ▸ hstands.bounds)
  generalize excess (M₁ * 2 ^ 53 / M₂) = t at *
  have hscale : ((M₁ * 2 ^ 53 : Nat) : ℚ) / M₂ / 2 ^ t =
      (M₁ : ℚ) * 2 ^ E₁ / (M₂ * 2 ^ E₂) * 2 ^ (-(E₁ - E₂ - 53 + t)) := by
    have hsplit : (2 : ℚ) ^ (-(E₁ - E₂ - 53 + t)) = 2 ^ 53 * 2 ^ E₂ / (2 ^ E₁ * 2 ^ t) := by
      rw [← zpow_natCast, ← zpow_natCast, ← zpow_add₀ two_ne_zero, ← zpow_add₀ two_ne_zero,
        ← zpow_sub₀ two_ne_zero]
      congr 1
      push_cast
      ring
    have hM₂' : (M₂ : ℚ) ≠ 0 := by exact_mod_cast hM₂.ne'
    have hE₁' := (two_zpow_pos E₁).ne'
    have hE₂' := (two_zpow_pos E₂).ne'
    rw [hsplit, Nat.cast_mul, Nat.cast_pow, Nat.cast_ofNat]
    field_simp
  rw [hscale] at hnearest hbounds
  refine ⟨M, E, hpos, r, _, ?_, hcanonical, hvalue, hnearest, hbounds⟩
  rw [← hround]
  simp only [div, divCore_of_long h₁ h₂ (by omega : -1000 ≤ E₁ - E₂)]
  rfl

theorem pos_of_log2 {m : Nat} (h : m.log2 = 52) : 0 < m := by
  rcases Nat.eq_zero_or_pos m with rfl | hpos
  · exact absurd h (by decide)
  · exact hpos

/-- A quotient of doubles that is more than one is more by half a unit in the last place of one. -/
theorem one_add_lt_quotient {M₁ M₂ : Nat} {E₁ E₂ : Int} (h₁ : M₁.log2 = 52) (h₂ : M₂.log2 = 52)
    (hlt : (M₂ : ℚ) * 2 ^ E₂ < M₁ * 2 ^ E₁) :
    1 + 1 / 2 ^ 53 < (M₁ : ℚ) * 2 ^ E₁ / (M₂ * 2 ^ E₂) := by
  obtain ⟨-, hhigh₁⟩ := (Nat.log2_eq_iff (Nat.ne_of_gt (pos_of_log2 h₁))).mp h₁
  obtain ⟨hlow₂, hhigh₂⟩ := (Nat.log2_eq_iff (Nat.ne_of_gt (pos_of_log2 h₂))).mp h₂
  have hpos₂ : (0 : ℚ) < 2 ^ E₂ := two_zpow_pos E₂
  have horder : E₂ ≤ E₁ := by
    by_contra hless
    have hhalf : (2 : ℚ) ^ E₁ * 2 ≤ 2 ^ E₂ := by
      rw [← zpow_add_one₀ two_ne_zero]
      exact zpow_le_zpow_right₀ one_le_two (by omega)
    have hlow : (2 : ℚ) ^ 52 ≤ M₂ := by exact_mod_cast hlow₂
    have hhigh : (M₁ : ℚ) < 2 ^ 53 := by exact_mod_cast hhigh₁
    refine absurd hlt (not_lt.mpr ?_)
    calc (M₁ : ℚ) * 2 ^ E₁ ≤ 2 ^ 53 * 2 ^ E₁ := mul_le_mul_of_nonneg_right hhigh.le (two_zpow_pos E₁).le
      _ = 2 ^ 52 * (2 ^ E₁ * 2) := by ring
      _ ≤ 2 ^ 52 * 2 ^ E₂ := mul_le_mul_of_nonneg_left hhalf (by positivity)
      _ ≤ M₂ * 2 ^ E₂ := mul_le_mul_of_nonneg_right hlow hpos₂.le
  obtain ⟨k, rfl⟩ := Int.le.dest horder
  -- on the grid of the smaller exponent both significands are whole numbers
  rw [zpow_add₀ two_ne_zero, zpow_natCast] at hlt ⊢
  have hwhole : M₂ < M₁ * 2 ^ k := by
    have : (M₂ : ℚ) < M₁ * 2 ^ k := by
      refine lt_of_mul_lt_mul_right ?_ hpos₂.le
      linarith
    exact_mod_cast this
  have hnext : (M₂ : ℚ) + 1 ≤ M₁ * 2 ^ k := by exact_mod_cast hwhole
  have hhigh : (M₂ : ℚ) < 2 ^ 53 := by exact_mod_cast hhigh₂
  have hM₂ : (0 : ℚ) < M₂ := by exact_mod_cast pos_of_log2 h₂
  rw [lt_div_iff₀ (mul_pos hM₂ hpos₂)]
  calc (1 + 1 / 2 ^ 53 : ℚ) * (M₂ * 2 ^ E₂) = (M₂ + M₂ / 2 ^ 53) * 2 ^ E₂ := by ring
    _ < (M₂ + 1) * 2 ^ E₂ := by
      refine mul_lt_mul_of_pos_right ?_ hpos₂
      linarith [(div_lt_one (by positivity : (0 : ℚ) < 2 ^ 53)).mpr hhigh]
    _ ≤ M₁ * 2 ^ k * 2 ^ E₂ := mul_le_mul_of_nonneg_right hnext hpos₂.le
    _ = M₁ * (2 ^ E₂ * 2 ^ k) := by ring

/-- Rounding keeps numbers that are far enough from one on their side of it. -/
theorem rounded_le_one_iff {r : Nat} {e : Int} {x : ℚ} (hnearest : Nearest r (x * 2 ^ (-e)))
    (hlow : 2 ^ 52 ≤ x * 2 ^ (-e)) (hhigh : x * 2 ^ (-e) < 2 ^ 53) (hfar : 1 < x → 1 + 1 / 2 ^ 53 < x) :
    (r : ℚ) * 2 ^ e ≤ 1 ↔ x ≤ 1 := by
  have hpos : (0 : ℚ) < 2 ^ e := two_zpow_pos e
  have hcancel : (2 : ℚ) ^ (-e) * 2 ^ e = 1 := by
    rw [← zpow_add₀ two_ne_zero, neg_add_cancel, zpow_zero]
  constructor
  · contrapose!
    intro hone
    have hr : 2 ^ 52 ≤ r := (Nearest.self (2 ^ 52)).le hnearest (by exact_mod_cast hlow)
    have hr' : (2 : ℚ) ^ 52 ≤ r := by exact_mod_cast hr
    -- the grid is no coarser than that of the doubles from one on
    have hgrid : -52 ≤ e := by
      by_contra hless
      have hfine : (2 : ℚ) ^ (53 : Nat) ≤ 2 ^ (-e) := by
        rw [← zpow_natCast]
        exact zpow_le_zpow_right₀ one_le_two (by omega)
      have hmore : (2 : ℚ) ^ (-e) < x * 2 ^ (-e) := lt_mul_of_one_lt_left (two_zpow_pos (-e)) hone
      linarith
    rcases hgrid.lt_or_eq with hcoarse | rfl
    · have hstep : (2 : ℚ) ^ (-51 : Int) ≤ 2 ^ e := zpow_le_zpow_right₀ one_le_two (by omega)
      calc (1 : ℚ) < 2 ^ 52 * 2 ^ (-51 : Int) := by norm_num
        _ ≤ 2 ^ 52 * 2 ^ e := mul_le_mul_of_nonneg_left hstep (by positivity)
        _ ≤ r * 2 ^ e := mul_le_mul_of_nonneg_right hr' hpos.le
    · have habove : (2 : ℚ) ^ 52 < r := by
        have hle := hnearest.le_add
        rw [neg_neg, show (2 : ℚ) ^ (52 : Int) = 2 ^ 52 from by norm_num] at hle
        linarith [mul_lt_mul_of_pos_right (hfar hone) (by positivity : (0 : ℚ) < 2 ^ 52)]
      calc (1 : ℚ) = 2 ^ 52 * 2 ^ (-52 : Int) := by norm_num
        _ < r * 2 ^ (-52 : Int) := mul_lt_mul_of_pos_right habove hpos
  · intro hone
    have hless : x * 2 ^ (-e) ≤ 2 ^ (-e) := mul_le_of_le_one_left (two_zpow_pos (-e)).le hone
    obtain ⟨j, hj⟩ : ∃ j : Nat, -e = (j : Int) := by
      refine Int.eq_ofNat_of_zero_le ?_
      by_contra hneg
      have : (2 : ℚ) ^ (-e) ≤ 2 ^ (0 : Int) := zpow_le_zpow_right₀ one_le_two (by omega)
      rw [zpow_zero] at this
      linarith
    rw [hj, zpow_natCast] at hless hnearest hcancel
    have hr : r ≤ 2 ^ j := hnearest.le (Nearest.self (2 ^ j)) (by exact_mod_cast hless)
    have hr' : (r : ℚ) ≤ 2 ^ j := by exact_mod_cast hr
    calc (r : ℚ) * 2 ^ e ≤ 2 ^ j * 2 ^ e := mul_le_mul_of_nonneg_right hr' hpos.le
      _ = 1 := hcancel

theorem value_one : (1 : Float).isFinite = true ∧ value 1 = 1 := by
  rw [show (1 : Float) = natToFloat 1 by decide]
  exact_mod_cast @value_of_whole 1 (by decide) (by decide)

theorem le_one_iff_value {x : Float} (h : x.isFinite = true) : x ≤ 1 ↔ value x ≤ 1 := by
  rw [le_iff_value h value_one.1, value_one.2]

theorem packed_zero : Packed 0 ∧ value 0 = 0 := by
  have hzero : (0 : Float) = .ofModel (.pack (.zero .positive)) := by decide
  refine ⟨⟨.zero .positive, trivial, hzero⟩, ?_⟩
  rw [hzero, (@value_ofModel_pack (.zero .positive) trivial).2, unpackedValue_zero]

/-- The quotient of positive words is positive, and at most one if the first becomes no larger double. -/
theorem quotient_of_words {m n : Nat} (hm : 0 < m) (hmlt : m < 2 ^ 64) (hn : 0 < n) (hnlt : n < 2 ^ 64) :
    Packed (natToFloat m / natToFloat n) ∧ 0 < value (natToFloat m / natToFloat n) ∧
      (value (natToFloat m / natToFloat n) ≤ 1 ↔ value (natToFloat m) ≤ value (natToFloat n)) := by
  obtain ⟨M₁, E₁, hM₁, hm', hcanonical₁, hlog₁, hE₁, -⟩ := natToFloat_cases hm hmlt
  obtain ⟨M₂, E₂, hM₂, hn', hcanonical₂, hlog₂, hE₂, -⟩ := natToFloat_cases hn hnlt
  obtain ⟨M, E, hM, r, e, hdiv, hcanonical, hvalue, hnearest, hlow, hhigh⟩ :=
    quotient_unpacked hM₁ hM₂ hlog₁ hlog₂ hE₁ hE₂
  have hquotient : natToFloat m / natToFloat n = .ofModel (.pack (.finite .positive M E hM)) := by
    rw [hn', hm', ← hdiv]
    change Float.ofModel (.pack (div .binary64 _ _)) = _
    rw [unpack_pack_of_number (u := .finite .positive M₁ E₁ hM₁) hcanonical₁,
      unpack_pack_of_number (u := .finite .positive M₂ E₂ hM₂) hcanonical₂]
  have hpos₂ : (0 : ℚ) < M₂ * 2 ^ E₂ := mul_pos (by exact_mod_cast hM₂) (two_zpow_pos E₂)
  have hfar : 1 < (M₁ : ℚ) * 2 ^ E₁ / (M₂ * 2 ^ E₂) → 1 + 1 / 2 ^ 53 < (M₁ : ℚ) * 2 ^ E₁ / (M₂ * 2 ^ E₂) :=
    fun hone => one_add_lt_quotient hlog₁ hlog₂ ((one_lt_div hpos₂).mp hone)
  refine ⟨⟨.finite .positive M E hM, hcanonical, hquotient⟩, ?_⟩
  rw [hquotient, hm', hn', (@value_ofModel_pack (.finite .positive M E hM) hcanonical).2,
    (@value_ofModel_pack (.finite .positive M₁ E₁ hM₁) hcanonical₁).2,
    (@value_ofModel_pack (.finite .positive M₂ E₂ hM₂) hcanonical₂).2]
  refine ⟨unpackedValue_pos hM, ?_⟩
  simp only [unpackedValue, Sign.apply, Int.cast_natCast]
  rw [hvalue, rounded_le_one_iff hnearest hlow hhigh hfar, div_le_one hpos₂]

theorem zero_quotient {n : Nat} (hpos : 0 < n) (hlt : n < 2 ^ 64) : natToFloat 0 / natToFloat n = 0 := by
  obtain ⟨M, E, hM, hn, hcanonical, -, -, -⟩ := natToFloat_cases hpos hlt
  rw [hn, show natToFloat 0 = .ofModel (.pack (.zero .positive)) by decide]
  change Float.ofModel (.pack (div .binary64 _ _)) = _
  rw [unpack_pack_of_number (u := .zero .positive) trivial,
    unpack_pack_of_number (u := .finite .positive M E hM) hcanonical]
  rfl

/-- The quotient of a whole number by one that is not less lies between zero and one. -/
theorem quotient_le_one {m n : Nat} (hle : m ≤ n) (hpos : 0 < n) (hlt : n < 2 ^ 64) :
    Packed (natToFloat m / natToFloat n) ∧ 0 ≤ value (natToFloat m / natToFloat n) ∧
      value (natToFloat m / natToFloat n) ≤ 1 := by
  rcases Nat.eq_zero_or_pos m with rfl | hm
  · rw [zero_quotient hpos hlt, packed_zero.2]
    exact ⟨packed_zero.1, le_refl _, zero_le_one⟩
  · obtain ⟨hpacked, hsome, hone⟩ := quotient_of_words hm (Nat.lt_of_le_of_lt hle hlt) hpos hlt
    exact ⟨hpacked, hsome.le, hone.mpr (value_natToFloat_le hm hle hlt)⟩

/-! ## Words -/

/-- A number becomes the double of its low 64 bits. -/
theorem natToFloat_mod (n : Nat) : natToFloat (n % 2 ^ 64) = natToFloat n := by
  have hword : UInt64.ofNat (n % 2 ^ 64) = UInt64.ofNat n := UInt64.toNat_inj.mp (by simp)
  rw [natToFloat, hword, natToFloat]

/-- A quotient of words is positive if the first is, and at most one if the first becomes no larger double. -/
theorem quotient_iff {m n : Nat} (hn : 0 < n % 2 ^ 64) :
    (0 < natToFloat m / natToFloat n ↔ 0 < m % 2 ^ 64) ∧
      (natToFloat m / natToFloat n ≤ 1 ↔ natToFloat m ≤ natToFloat n) := by
  rw [← natToFloat_mod m, ← natToFloat_mod n]
  have hmlt : m % 2 ^ 64 < 2 ^ 64 := Nat.mod_lt _ (by decide)
  have hnlt : n % 2 ^ 64 < 2 ^ 64 := Nat.mod_lt _ (by decide)
  generalize m % 2 ^ 64 = m at *
  generalize n % 2 ^ 64 = n at *
  obtain ⟨hfinite, hsome, -⟩ := value_natToFloat hn hnlt
  have hzero := packed_zero.1.isFinite
  rcases Nat.eq_zero_or_pos m with rfl | hm
  · have hnone : natToFloat 0 = 0 := by decide
    rw [zero_quotient hn hnlt, hnone, le_one_iff_value hzero, le_iff_value hzero hfinite,
      lt_iff_value hzero hzero, packed_zero.2]
    exact ⟨iff_of_false (lt_irrefl _) (lt_irrefl _), iff_of_true zero_le_one hsome.le⟩
  · obtain ⟨hpacked, hpos, hone⟩ := quotient_of_words hm hmlt hn hnlt
    rw [lt_iff_value hzero hpacked.isFinite, packed_zero.2, le_one_iff_value hpacked.isFinite, hone,
      le_iff_value (value_natToFloat hm hmlt).1 hfinite]
    exact ⟨iff_of_true hpos hm, Iff.rfl⟩

/-- The number of pairs of up to `2 ^ 32` is a word. -/
theorem pairs_lt {n : Nat} (h : n ≤ 2 ^ 32) : n * (n - 1) < 2 ^ 64 :=
  calc n * (n - 1) ≤ 2 ^ 32 * (2 ^ 32 - 1) := Nat.mul_le_mul h (Nat.sub_le_sub_right h 1)
    _ < 2 ^ 64 := by decide

/-- Of two neighbours one is odd, so their product is no multiple of `2 ^ 64` unless one of them is. -/
theorem pairs_mod_pos {n : Nat} (htwo : 2 ≤ n) (hlt : n < 2 ^ 64) : 0 < n * (n - 1) % 2 ^ 64 := by
  refine Nat.pos_of_ne_zero fun hzero => ?_
  have hdvd : 2 ^ 64 ∣ n * (n - 1) := Nat.dvd_of_mod_eq_zero hzero
  rcases Nat.even_or_odd n with heven | hodd
  · have hother : ¬2 ∣ n - 1 := by
      obtain ⟨k, rfl⟩ := heven
      omega
    have : 2 ^ 64 ∣ n := (Nat.prime_two.prime.pow_dvd_of_dvd_mul_right 64 hother hdvd)
    exact absurd (Nat.le_of_dvd (by omega) this) (by omega)
  · have hother : ¬2 ∣ n := by
      obtain ⟨k, rfl⟩ := hodd
      omega
    have : 2 ^ 64 ∣ n - 1 := (Nat.prime_two.prime.pow_dvd_of_dvd_mul_left 64 hother hdvd)
    exact absurd (Nat.le_of_dvd (by omega) this) (by omega)

end PackedGraph
