import PackedGraph.Proofs.Numeric.Negation

/-!
# Sums of doubles

Doubles are rounded to the nearest of a grid that is the finer the smaller the number is (`Grid`).  Rounding
keeps the order across grids (`Rounded.le`), and doubles lie on their own grid.  So the sum of two doubles that
are not negative is no less than either of them, and grows with each of them, all the way to infinity, which it
becomes where it passes the largest double.  It is exact wherever it is a double.

Main statements: `exists_place_add`, `value_add_of_value`, `place_le_place_add` and `place_add_le_place_add`.
-/

namespace PackedGraph

open Float.Model (Format totalExponent UnpackedFloat)
open Float.Model.UnpackedFloat

/-! ## Rounding -/

/-- On the grid of step `2 ^ t` a number has 53 bits, or fewer where there is no finer grid. -/
structure Grid (v : ℚ) (t : Int) : Prop where
  /-- There is such a grid. -/
  low : -1074 ≤ t
  /-- The number has no more than 53 bits, -/
  short : v < 2 ^ 53 * 2 ^ t
  /-- and all of them unless the grid is the finest. -/
  full : t = -1074 ∨ 2 ^ 52 * 2 ^ t ≤ v

/-- A number and what it is rounded to, if there is no largest double. -/
def Rounded (v q : ℚ) : Prop := ∃ (t : Int) (r : Nat), Grid v t ∧ Nearest r (v / 2 ^ t) ∧ q = r * 2 ^ t

theorem two_zpow_succ (t : Int) : (2 : ℚ) ^ 53 * 2 ^ t = 2 ^ 52 * 2 ^ (t + 1) := by
  rw [zpow_add_one₀ (by norm_num)]
  ring

/-- A larger number has no finer grid. -/
theorem Grid.le {v v' : ℚ} {t t' : Int} (h : Grid v t) (h' : Grid v' t') (hle : v ≤ v') : t ≤ t' := by
  by_contra hlt
  have hfull : 2 ^ 52 * 2 ^ t ≤ v := h.full.resolve_left fun heq => by
    have := h'.low
    omega
  have hstep : (2 : ℚ) ^ 53 * 2 ^ t' ≤ 2 ^ 52 * 2 ^ t := by
    rw [two_zpow_succ]
    exact mul_le_mul_of_nonneg_left (zpow_le_zpow_right₀ (by norm_num) (by omega)) (by norm_num)
  linarith [h'.short]

/-- **Rounding keeps the order.** -/
theorem Rounded.le {v v' q q' : ℚ} (h : Rounded v q) (h' : Rounded v' q') (hle : v ≤ v') : q ≤ q' := by
  obtain ⟨t, r, hgrid, hnearest, rfl⟩ := h
  obtain ⟨t', r', hgrid', hnearest', rfl⟩ := h'
  have hpos := two_zpow_pos t
  have hpos' := two_zpow_pos t'
  rcases (hgrid.le hgrid' hle).eq_or_lt with rfl | hlt
  · have hr : r ≤ r' := hnearest.le hnearest' (by gcongr)
    gcongr
  · -- the last multiple of one grid is the first full one of the next
    have hr : r ≤ 2 ^ 53 := by
      refine hnearest.le (Nearest.self (2 ^ 53)) ?_
      rw [div_le_iff₀ hpos]
      exact_mod_cast hgrid.short.le
    have hr' : 2 ^ 52 ≤ r' := by
      refine (Nearest.self (2 ^ 52)).le hnearest' ?_
      rw [le_div_iff₀ hpos']
      have hfull := hgrid'.full.resolve_left (by have := hgrid.low; omega)
      exact_mod_cast hfull
    calc (r : ℚ) * 2 ^ t ≤ 2 ^ 53 * 2 ^ t :=
          mul_le_mul_of_nonneg_right (by exact_mod_cast hr) hpos.le
      _ = 2 ^ 52 * 2 ^ (t + 1) := two_zpow_succ t
      _ ≤ 2 ^ 52 * 2 ^ t' :=
          mul_le_mul_of_nonneg_left (zpow_le_zpow_right₀ (by norm_num) (by omega)) (by norm_num)
      _ ≤ r' * 2 ^ t' := mul_le_mul_of_nonneg_right (by exact_mod_cast hr') hpos'.le

/-- Doubles lie on their grid. -/
theorem Canonical.rounded {m : Nat} {e : Int} (h : Canonical m e) : Rounded (m * 2 ^ e) (m * 2 ^ e) := by
  have hpos := two_zpow_pos e
  refine ⟨e, m, ⟨h.low, ?_, ?_⟩, ?_, rfl⟩
  · exact mul_lt_mul_of_pos_right (by exact_mod_cast h.lt) hpos
  · refine h.full.imp_right fun hfull => ?_
    exact mul_le_mul_of_nonneg_right (by exact_mod_cast hfull) hpos.le
  · rw [mul_div_assoc, div_self hpos.ne', mul_one]
    exact Nearest.self m

/-- So does zero. -/
theorem rounded_zero : Rounded 0 0 := by
  have hpos := two_zpow_pos (-1074)
  refine ⟨-1074, 0, ⟨le_refl _, ?_, .inl rfl⟩, ?_, ?_⟩
  · exact mul_pos (by norm_num) hpos
  · rw [zero_div]
    exact_mod_cast Nearest.self 0
  · rw [Nat.cast_zero, zero_mul]

/-! ## How doubles are rounded -/

section

variable {m : Nat} {e : Int}

/-- The exponent that rounding aims at is that of the grid. -/
theorem grid_targetExponent (hm : 0 < m) (e : Int) :
    Grid (m * 2 ^ e) (Format.binary64.targetExponent (totalExponent m e)) := by
  have hne := Nat.ne_of_gt hm
  have hlow : (2 : ℚ) ^ (m.log2 : Int) ≤ m := by
    rw [zpow_natCast]
    exact_mod_cast Nat.log2_self_le hne
  have hhigh : (m : ℚ) < 2 ^ ((m.log2 : Int) + 1) := by
    have hlt : m < 2 ^ (m.log2 + 1) := Nat.lt_log2_self
    exact_mod_cast hlt
  have hpos := two_zpow_pos e
  rw [totalExponent, Format.targetExponent, show Format.binary64.minExponent = -1074 from rfl,
    show Format.binary64.mantissaBits = 53 from rfl]
  generalize ht : max ((m.log2 : Int) + 1 + e - (53 : Nat)) (-1074) = t
  constructor
  case low => omega
  case short =>
    calc (m : ℚ) * 2 ^ e < 2 ^ ((m.log2 : Int) + 1) * 2 ^ e := mul_lt_mul_of_pos_right hhigh hpos
      _ = 2 ^ ((m.log2 : Int) + 1 + e) := (zpow_add₀ (by norm_num) _ _).symm
      _ ≤ 2 ^ (53 + t) := zpow_le_zpow_right₀ (by norm_num) (by omega)
      _ = 2 ^ 53 * 2 ^ t := zpow_add₀ (by norm_num) _ _
  case full =>
    by_cases hfinest : t = -1074
    · exact .inl hfinest
    · right
      calc (2 : ℚ) ^ 52 * 2 ^ t = 2 ^ (52 + t) := (zpow_add₀ (by norm_num) _ _).symm
        _ = 2 ^ ((m.log2 : Int) + e) := by congr 1; omega
        _ = 2 ^ (m.log2 : Int) * 2 ^ e := zpow_add₀ (by norm_num) _ _
        _ ≤ m * 2 ^ e := mul_le_mul_of_nonneg_right hlow hpos.le

/-- Zeros behind a significand are made up for by its exponent. -/
theorem mul_two_pow_mul_zpow (m k : Nat) (e : Int) : ((m * 2 ^ k : Nat) : ℚ) * 2 ^ (e - k) = m * 2 ^ e := by
  rw [Nat.cast_mul, Nat.cast_pow, Nat.cast_ofNat, mul_assoc, ← zpow_natCast, ← zpow_add₀ (by norm_num),
    add_sub_cancel]

/-- Zeros are put behind a significand until its exponent is no larger than the one that rounding aims at. -/
theorem exists_decreaseExponent (hm : 0 < m) (e : Int) :
    ∃ (m' : Nat) (e' : Int),
      decreaseExponent m e (Format.binary64.targetExponent (totalExponent m e)) = (m', e') ∧
      e' ≤ Format.binary64.targetExponent (totalExponent m e) ∧
      totalExponent m' e' = totalExponent m e ∧ (m' : ℚ) * 2 ^ e' = m * 2 ^ e := by
  generalize Format.binary64.targetExponent (totalExponent m e) = t
  refine ⟨m * 2 ^ (e - t).toNat, e - (e - t).toNat, ?_, by omega, ?_, mul_two_pow_mul_zpow _ _ _⟩
  · rw [decreaseExponent, Nat.shiftLeft_eq]
  · rw [totalExponent, totalExponent, log2_mul_two_pow (Nat.ne_of_gt hm)]
    push_cast
    ring

/-- What has been rounded on its grid is not shifted, unless it has become one bit longer. -/
theorem shift_rounded {r : Nat} {t : Int} (hlow : -1074 ≤ t) (hr : r ≤ 2 ^ 53) (hfull : t = -1074 ∨ 2 ^ 52 ≤ r) :
    ∃ (M : Nat) (E : Int), shiftToTargetExponent .binary64 r t .exact = (⟨M, false, false⟩, E) ∧
      (M : ℚ) * 2 ^ E = r * 2 ^ t ∧ M < 2 ^ 53 ∧ -1074 ≤ E ∧ (E = -1074 ∨ 2 ^ 52 ≤ M) := by
  rcases hr.eq_or_lt with rfl | hlt
  · refine ⟨2 ^ 52, t + 1, ?_, ?_, by norm_num, by omega, .inr (le_refl _)⟩
    · have htarget : Format.binary64.targetExponent (totalExponent (2 ^ 53) t) = t + 1 := by
        rw [totalExponent, Format.targetExponent, show Format.binary64.minExponent = -1074 from rfl,
          show Format.binary64.mantissaBits = 53 from rfl, Nat.log2_two_pow]
        omega
      rw [shiftToTargetExponent, htarget, shiftToExponent, show (t + 1 - t).toNat = 1 by omega]
      rfl
    · rw [zpow_add_one₀ (by norm_num)]
      push_cast
      ring
  · refine ⟨r, t, ?_, rfl, hlt, hlow, hfull⟩
    have htarget : Format.binary64.targetExponent (totalExponent r t) ≤ t := by
      have hlog : r.log2 < 53 := by
        rcases Nat.eq_zero_or_pos r with rfl | hpos
        · decide
        · exact (Nat.log2_lt (Nat.ne_of_gt hpos)).mpr hlt
      rw [totalExponent, Format.targetExponent, show Format.binary64.minExponent = -1074 from rfl,
        show Format.binary64.mantissaBits = 53 from rfl]
      omega
    rw [shiftToTargetExponent, shiftToExponent,
      show (Format.binary64.targetExponent (totalExponent r t) - t).toNat = 0 by omega]
    exact Prod.ext rfl (by simp)

/-- **What a positive number becomes.**  It is rounded on its grid. -/
theorem exists_rounded (hm : 0 < m) (e : Int) :
    ∃ q, Rounded (m * 2 ^ e) q ∧ (UnpackedFloat.round .binary64 .positive m e = .zero .positive ∧ q = 0 ∨
      ∃ (M : Nat) (E : Int) (hM : 0 < M), UnpackedFloat.round .binary64 .positive m e = .finite .positive M E hM ∧
        q = M * 2 ^ E ∧ M < 2 ^ 53 ∧ -1074 ≤ E ∧ (E = -1074 ∨ 2 ^ 52 ≤ M)) := by
  obtain ⟨m', e', hdecrease, hle, htotal, hvalue⟩ := exists_decreaseExponent hm e
  have hgrid := grid_targetExponent hm e
  generalize ht : Format.binary64.targetExponent (totalExponent m e) = t at hdecrease hle hgrid
  have hpos := two_zpow_pos t
  have hshift : (m' : ℚ) / 2 ^ (t - e').toNat = m * 2 ^ e / 2 ^ t := by
    rw [← hvalue, div_eq_div_iff (by positivity) hpos.ne', mul_assoc, ← zpow_natCast, ← zpow_add₀ (by norm_num)]
    congr 2
    omega
  have hnearest := ((stands_exact m').shiftRight (t - e').toNat).nearest
  rw [hshift] at hnearest
  generalize hr : (ExtendedMantissa.mk m' false false >>> (t - e').toNat).roundedMantissa = r at hnearest
  have hshort : r ≤ 2 ^ 53 := by
    refine hnearest.le (Nearest.self (2 ^ 53)) ?_
    rw [div_le_iff₀ hpos]
    exact_mod_cast hgrid.short.le
  have hfull : t = -1074 ∨ 2 ^ 52 ≤ r := hgrid.full.imp_right fun hlong => by
    refine (Nearest.self (2 ^ 52)).le hnearest ?_
    rw [le_div_iff₀ hpos]
    exact_mod_cast hlong
  obtain ⟨M, E, hshifted, hq, hM, hE, hlong⟩ := shift_rounded hgrid.low hshort hfull
  have hround : UnpackedFloat.round .binary64 .positive m e =
      if h : M = 0 then .zero .positive else .finite .positive M E (Nat.pos_of_ne_zero h) := by
    have hfirst : shiftToTargetExponent .binary64 m' e' .exact =
        (ExtendedMantissa.mk m' false false >>> (t - e').toNat, t) := by
      rw [shiftToTargetExponent, htotal, ht, shiftToExponent]
      exact Prod.ext rfl (by simp only; omega)
    simp only [UnpackedFloat.round, ht, hdecrease, roundWithAccuracy, hfirst, hr, hshifted]
  refine ⟨r * 2 ^ t, ⟨t, r, hgrid, hnearest, rfl⟩, ?_⟩
  by_cases hzero : M = 0
  · refine .inl ⟨hround.trans (dif_pos hzero), ?_⟩
    rw [← hq, hzero, Nat.cast_zero, zero_mul]
  · exact .inr ⟨M, E, Nat.pos_of_ne_zero hzero, hround.trans (dif_neg hzero), hq.symm, hM, hE, hlong⟩

end

/-! ## Beyond the largest double -/

/-- The place of the double that a rounded number becomes: it is infinite beyond the largest double. -/
def roundedPlace (q : ℚ) : WithTop (WithBot ℚ) := if q < 2 ^ 1024 then valuePlace q else ⊤

theorem roundedPlace_le {q q' : ℚ} (h : q ≤ q') : roundedPlace q ≤ roundedPlace q' := by
  unfold roundedPlace
  split
  · split
    · exact WithTop.coe_le_coe.mpr (WithBot.coe_le_coe.mpr h)
    · exact le_top
  · rename_i hlarge
    rw [if_neg fun hlt => hlarge (h.trans_lt hlt)]

/-- Doubles are smaller than `2 ^ 1024`. -/
theorem mul_zpow_lt_of_le {M : Nat} {E : Int} (hM : M < 2 ^ 53) (hE : E ≤ 971) : (M : ℚ) * 2 ^ E < 2 ^ 1024 := by
  calc (M : ℚ) * 2 ^ E < 2 ^ 53 * 2 ^ E := mul_lt_mul_of_pos_right (by exact_mod_cast hM) (two_zpow_pos E)
    _ ≤ 2 ^ 53 * 2 ^ (971 : Int) :=
        mul_le_mul_of_nonneg_left (zpow_le_zpow_right₀ (by norm_num) hE) (by norm_num)
    _ = 2 ^ 1024 := by rw [show (971 : Int) = (971 : Nat) from rfl, zpow_natCast, ← pow_add]

/-- Numbers with a larger exponent are not. -/
theorem le_mul_zpow_of_lt {M : Nat} {E : Int} (hM : 2 ^ 52 ≤ M) (hE : 971 < E) : 2 ^ 1024 ≤ (M : ℚ) * 2 ^ E := by
  calc (2 : ℚ) ^ 1024 = 2 ^ 52 * 2 ^ (972 : Int) := by
        rw [show (972 : Int) = (972 : Nat) from rfl, zpow_natCast, ← pow_add]
    _ ≤ 2 ^ 52 * 2 ^ E := mul_le_mul_of_nonneg_left (zpow_le_zpow_right₀ (by norm_num) (by omega)) (by norm_num)
    _ ≤ M * 2 ^ E := mul_le_mul_of_nonneg_right (by exact_mod_cast hM) (two_zpow_pos E).le

/-- They are packed as an infinity. -/
theorem pack_of_lt {M : Nat} {E : Int} (hE : 971 < E) (hM : 0 < M) :
    Float.Model.pack (.finite .positive M E hM) = .pack (.infinity .positive) := by
  rw [Float.Model.pack, Float.Model.pack, Float.Model.mk.injEq]
  unfold pack
  simp only [show Format.binary64.exponentBias = 1023 from rfl]
  refine congrArg UInt64.ofBitVec (if_pos ?_)
  omega

/-- An unpacked double and what it is packed to have one place. -/
theorem unpackedPlace_pack {u : UnpackedFloat} (h : Number u) :
    Placed (Float.Model.pack u).unpack ∧ unpackedPlace (Float.Model.pack u).unpack = valuePlace (unpackedValue u) := by
  rw [unpack_pack_of_number h]
  exact ⟨.inr h, unpackedPlace_of_number h⟩

/-- **Rounding and packing.**  A positive number is packed as the double nearest to it, or as infinity. -/
theorem exists_place_round {m : Nat} (hm : 0 < m) (e : Int) :
    ∃ q, Rounded (m * 2 ^ e) q ∧
      Placed (Float.Model.pack (UnpackedFloat.round .binary64 .positive m e)).unpack ∧
      unpackedPlace (Float.Model.pack (UnpackedFloat.round .binary64 .positive m e)).unpack = roundedPlace q := by
  obtain ⟨q, hq, ⟨hround, rfl⟩ | ⟨M, E, hM, hround, rfl, hshort, hlow, hfull⟩⟩ := exists_rounded hm e
  · refine ⟨0, hq, ?_⟩
    rw [hround, roundedPlace, if_pos (by norm_num)]
    exact @unpackedPlace_pack (.zero .positive) trivial
  · refine ⟨_, hq, ?_⟩
    rw [hround]
    rcases lt_or_ge 971 E with hlarge | hle
    · have hlong : 2 ^ 52 ≤ M := hfull.resolve_left (by omega)
      rw [pack_of_lt hlarge, roundedPlace, if_neg (not_lt.mpr (le_mul_zpow_of_lt hlong hlarge)),
        unpack_pack_of_placed (.inl ⟨_, rfl⟩)]
      exact ⟨.inl ⟨_, rfl⟩, rfl⟩
    · have hnumber : Number (.finite .positive M E hM) := ⟨hshort, hlow, hle, hfull⟩
      rw [roundedPlace, if_pos (mul_zpow_lt_of_le hshort hle)]
      obtain ⟨hplaced, hplace⟩ := unpackedPlace_pack hnumber
      refine ⟨hplaced, hplace.trans ?_⟩
      simp only [unpackedValue, Sign.apply, Int.cast_natCast]

/-! ## Sums -/

/-- Two positive numbers are brought to one exponent, added and rounded. -/
theorem add_finite {m₁ m₂ : Nat} {e₁ e₂ : Int} (h₁ : 0 < m₁) (h₂ : 0 < m₂) :
    ∃ (m : Nat) (e : Int), 0 < m ∧
      UnpackedFloat.add .binary64 (.finite .positive m₁ e₁ h₁) (.finite .positive m₂ e₂ h₂) =
        UnpackedFloat.round .binary64 .positive m e ∧
      (m : ℚ) * 2 ^ e = m₁ * 2 ^ e₁ + m₂ * 2 ^ e₂ := by
  have hscale : ∀ (m : Nat) (e e' : Int), e' ≤ e →
      ((m * 2 ^ (e - e').toNat : Nat) : ℚ) * 2 ^ e' = m * 2 ^ e := by
    intro m e e' hle
    rw [← mul_two_pow_mul_zpow m (e - e').toNat e]
    congr 2
    omega
  generalize he : min e₁ e₂ = e
  refine ⟨m₁ * 2 ^ (e₁ - e).toNat + m₂ * 2 ^ (e₂ - e).toNat, e, by positivity, ?_, ?_⟩
  · unfold UnpackedFloat.add
    simp only [he, decreaseExponent, Sign.apply, Nat.shiftLeft_eq, ← Int.natCast_add]
    have hsum : 0 < m₁ * 2 ^ (e₁ - e).toNat + m₂ * 2 ^ (e₂ - e).toNat := by positivity
    generalize m₁ * 2 ^ (e₁ - e).toNat + m₂ * 2 ^ (e₂ - e).toNat = m at hsum
    rw [UnpackedFloat.normalize, show compare (m : Int) 0 = .gt from by rw [Int.compare_eq_gt]; omega,
      Int.toNat_natCast]
  · rw [Nat.cast_add, add_mul, hscale _ _ _ (by omega), hscale _ _ _ (by omega)]

/-- What is not negative is a zero or has the positive sign. -/
theorem cases_of_nonneg {u : UnpackedFloat} (hu : Number u) (h : 0 ≤ unpackedValue u) :
    (∃ s, u = .zero s) ∨ ∃ (m : Nat) (e : Int) (hm : 0 < m), u = .finite .positive m e hm ∧
      Canonical m e ∧ unpackedValue u = m * 2 ^ e := by
  cases u with
  | infinity | notANumber => exact absurd hu id
  | zero s => exact .inl ⟨s, rfl⟩
  | finite s m e hm =>
    cases s with
    | negative => exact absurd h (not_le.mpr (unpackedValue_neg hm))
    | positive =>
      refine .inr ⟨m, e, hm, rfl, hu, ?_⟩
      simp only [unpackedValue, Sign.apply, Int.cast_natCast]

/-- A double that is not negative lies on its grid, and is not too large. -/
theorem rounded_of_number {u : UnpackedFloat} (hu : Number u) (h : 0 ≤ unpackedValue u) :
    Rounded (unpackedValue u) (unpackedValue u) ∧ unpackedValue u < 2 ^ 1024 := by
  rcases cases_of_nonneg hu h with ⟨s, rfl⟩ | ⟨m, e, hm, rfl, hcanonical, hvalue⟩
  · rw [unpackedValue_zero]
    exact ⟨rounded_zero, by norm_num⟩
  · rw [hvalue]
    exact ⟨hcanonical.rounded, mul_zpow_lt_of_le hcanonical.lt hcanonical.high⟩

theorem exists_place_add_unpacked {u v : UnpackedFloat} (hu : Number u) (hv : Number v)
    (hu0 : 0 ≤ unpackedValue u) (hv0 : 0 ≤ unpackedValue v) :
    ∃ q, Rounded (unpackedValue u + unpackedValue v) q ∧
      Placed (Float.Model.pack (UnpackedFloat.add .binary64 u v)).unpack ∧
      unpackedPlace (Float.Model.pack (UnpackedFloat.add .binary64 u v)).unpack = roundedPlace q := by
  have hsame : ∀ w, Number w → 0 ≤ unpackedValue w → ∀ x : UnpackedFloat, x = w →
      ∃ q, Rounded (unpackedValue w) q ∧ Placed (Float.Model.pack x).unpack ∧
        unpackedPlace (Float.Model.pack x).unpack = roundedPlace q := by
    rintro w hw hw0 x rfl
    obtain ⟨hrounded, hlt⟩ := rounded_of_number hw hw0
    refine ⟨_, hrounded, ?_⟩
    rw [roundedPlace, if_pos hlt]
    exact unpackedPlace_pack hw
  rcases cases_of_nonneg hu hu0 with ⟨s, rfl⟩ | ⟨m₁, e₁, h₁, rfl, -, hvalue₁⟩
  · rcases cases_of_nonneg hv hv0 with ⟨s', rfl⟩ | ⟨m₂, e₂, h₂, rfl, -, -⟩
    · rw [unpackedValue_zero, unpackedValue_zero, zero_add]
      refine hsame (.zero (if s == s' then s else .positive)) trivial (le_refl _) _ ?_
      cases s <;> cases s' <;> rfl
    · rw [unpackedValue_zero, zero_add]
      exact hsame _ hv hv0 _ rfl
  · rcases cases_of_nonneg hv hv0 with ⟨s', rfl⟩ | ⟨m₂, e₂, h₂, rfl, -, hvalue₂⟩
    · rw [unpackedValue_zero, add_zero]
      exact hsame _ hu hu0 _ rfl
    · obtain ⟨m, e, hm, hadd, hvalue⟩ := @add_finite m₁ m₂ e₁ e₂ h₁ h₂
      rw [hvalue₁, hvalue₂, ← hvalue, hadd]
      exact exists_place_round hm e

/-! ## Costs of paths -/

/-- A double that is not a NaN and not negative; it may be infinite. -/
def NotNegative (x : Float) : Prop := x.isNaN = false ∧ valuePlace 0 ≤ place x

section

variable {x y w : Float}

theorem place_of_isFinite (h : x.isFinite = true) : place x = valuePlace (value x) :=
  unpackedPlace_of_number (number_of_isFinite h)

theorem isNaN_of_isFinite (h : x.isFinite = true) : x.isNaN = false :=
  isNaN_of_placed (.inr (number_of_isFinite h))

theorem valuePlace_le {a b : ℚ} : valuePlace a ≤ valuePlace b ↔ a ≤ b :=
  WithTop.coe_le_coe.trans WithBot.coe_le_coe

/-- A double that is not negative is finite or infinity. -/
theorem NotNegative.finite_or_infinite (h : NotNegative x) :
    x.isFinite = true ∧ 0 ≤ value x ∨ x.toModel.unpack = .infinity .positive := by
  obtain ⟨hnan, hplace⟩ := h
  rcases placed_of_not_isNaN hnan with ⟨sign, hu⟩ | hu
  · cases sign with
    | positive => exact .inr hu
    | negative =>
      rw [place, hu] at hplace
      exact absurd hplace (not_le.mpr (valuePlace_bounds 0).1)
  · left
    have hfinite : x.isFinite = true := by
      change x.toModel.unpack.isFinite = true
      generalize x.toModel.unpack = u at hu
      cases u with
      | infinity | notANumber => exact absurd hu id
      | zero | finite => rfl
    rw [place_of_isFinite hfinite, valuePlace_le] at hplace
    exact ⟨hfinite, hplace⟩

theorem NotNegative.place_lt_top_iff (h : NotNegative x) : place x < ⊤ ↔ x.isFinite = true := by
  constructor
  · intro hlt
    rcases h.finite_or_infinite with ⟨hfinite, -⟩ | hinfinite
    · exact hfinite
    · rw [place, hinfinite] at hlt
      exact absurd hlt (lt_irrefl _)
  · intro hfinite
    rw [place_of_isFinite hfinite]
    exact (valuePlace_bounds _).2

theorem unpack_infinity : (1.0 / 0.0 : Float).toModel.unpack = .infinity .positive := by
  rw [show (1.0 / 0.0 : Float) = .ofModel (.pack (.infinity .positive)) by decide]
  exact unpack_pack_of_placed (.inl ⟨_, rfl⟩)

theorem place_infinity : place (1.0 / 0.0) = ⊤ := by
  rw [place, unpack_infinity]
  rfl

theorem notNegative_infinity : NotNegative (1.0 / 0.0) :=
  ⟨isNaN_of_placed (.inl ⟨_, unpack_infinity⟩), by rw [place_infinity]; exact le_top⟩

theorem notNegative_of_value (hx : x.isFinite = true) (h : 0 ≤ value x) : NotNegative x :=
  ⟨isNaN_of_isFinite hx, by rwa [place_of_isFinite hx, valuePlace_le]⟩

/-- **The sum of two finite doubles that are not negative** is their sum rounded. -/
theorem exists_place_add (hx : x.isFinite = true) (hx0 : 0 ≤ value x) (hw : w.isFinite = true)
    (hw0 : 0 ≤ value w) :
    ∃ q, Rounded (value x + value w) q ∧ (x + w).isNaN = false ∧ place (x + w) = roundedPlace q := by
  obtain ⟨q, hq, hplaced, hplace⟩ :=
    exists_place_add_unpacked (number_of_isFinite hx) (number_of_isFinite hw) hx0 hw0
  exact ⟨q, hq, isNaN_of_placed hplaced, hplace⟩

/-- **A sum is exact** where some finite double stands for it. -/
theorem value_add_of_value {z : Float} (hx : x.isFinite = true) (hx0 : 0 ≤ value x) (hw : w.isFinite = true)
    (hw0 : 0 ≤ value w) (hz : z.isFinite = true) (hsum : value z = value x + value w) :
    (x + w).isFinite = true ∧ value (x + w) = value x + value w := by
  have hz0 : 0 ≤ value z := hsum.symm ▸ add_nonneg hx0 hw0
  obtain ⟨q, hq, hnan, hplace⟩ := exists_place_add hx hx0 hw hw0
  obtain ⟨hrounded, hlt⟩ : Rounded (value z) (value z) ∧ value z < 2 ^ 1024 :=
    rounded_of_number (number_of_isFinite hz) hz0
  rw [← hsum] at hq ⊢
  obtain rfl : q = value z := le_antisymm (hq.le hrounded (le_refl _)) (hrounded.le hq (le_refl _))
  rw [roundedPlace, if_pos hlt] at hplace
  have hnotNegative : NotNegative (x + w) := ⟨hnan, hplace ▸ valuePlace_le.mpr hz0⟩
  have hfinite : (x + w).isFinite = true := by
    rw [← hnotNegative.place_lt_top_iff, hplace]
    exact (valuePlace_bounds _).2
  rw [place_of_isFinite hfinite] at hplace
  exact ⟨hfinite, le_antisymm (valuePlace_le.mp hplace.le) (valuePlace_le.mp hplace.ge)⟩

/-- Infinity stays infinity. -/
theorem unpack_add_of_infinite (hx : x.toModel.unpack = .infinity .positive) (hw : w.isFinite = true) :
    (x + w).toModel.unpack = .infinity .positive := by
  have hnumber := number_of_isFinite hw
  have hsum : UnpackedFloat.add .binary64 (.infinity .positive) w.toModel.unpack = .infinity .positive := by
    generalize w.toModel.unpack = u at hnumber
    cases u with
    | infinity | notANumber => exact absurd hnumber id
    | zero | finite => rfl
  change (Float.Model.pack (UnpackedFloat.add .binary64 x.toModel.unpack w.toModel.unpack)).unpack = _
  rw [hx, hsum]
  exact unpack_pack_of_placed (.inl ⟨_, rfl⟩)

/-- A sum is no less than what something is added to. -/
theorem place_le_place_add (hx : NotNegative x) (hw : w.isFinite = true) (hw0 : 0 ≤ value w) :
    (x + w).isNaN = false ∧ place x ≤ place (x + w) := by
  rcases hx.finite_or_infinite with ⟨hfinite, hx0⟩ | hinfinite
  · obtain ⟨q, hq, hnan, hplace⟩ := exists_place_add hfinite hx0 hw hw0
    refine ⟨hnan, ?_⟩
    obtain ⟨hrounded, hlt⟩ : Rounded (value x) (value x) ∧ value x < 2 ^ 1024 :=
      rounded_of_number (number_of_isFinite hfinite) hx0
    have hle : value x ≤ q := hrounded.le hq (by linarith)
    rw [hplace, place_of_isFinite hfinite]
    calc valuePlace (value x) = roundedPlace (value x) := (if_pos hlt).symm
      _ ≤ roundedPlace q := roundedPlace_le hle
  · have hsum := unpack_add_of_infinite hinfinite hw
    refine ⟨isNaN_of_placed (.inl ⟨_, hsum⟩), ?_⟩
    rw [place, place, hinfinite, hsum]

theorem NotNegative.add (hx : NotNegative x) (hw : w.isFinite = true) (hw0 : 0 ≤ value w) : NotNegative (x + w) := by
  obtain ⟨hnan, hle⟩ := place_le_place_add hx hw hw0
  exact ⟨hnan, hx.2.trans hle⟩

/-- A sum grows with what something is added to. -/
theorem place_add_le_place_add (hx : NotNegative x) (hy : NotNegative y) (hle : place x ≤ place y)
    (hw : w.isFinite = true) (hw0 : 0 ≤ value w) : place (x + w) ≤ place (y + w) := by
  rcases hy.finite_or_infinite with ⟨hfinite, hy0⟩ | hinfinite
  · have hx' : x.isFinite = true ∧ 0 ≤ value x := hx.finite_or_infinite.resolve_right fun hinfinite => by
      rw [place_of_isFinite hfinite, place, hinfinite] at hle
      exact absurd hle (not_le.mpr (valuePlace_bounds _).2)
    obtain ⟨q, hq, -, hplace⟩ := exists_place_add hx'.1 hx'.2 hw hw0
    obtain ⟨q', hq', -, hplace'⟩ := exists_place_add hfinite hy0 hw hw0
    rw [place_of_isFinite hx'.1, place_of_isFinite hfinite, valuePlace_le] at hle
    rw [hplace, hplace']
    exact roundedPlace_le (hq.le hq' (by linarith))
  · have htop : place (y + w) = ⊤ := by
      rw [place, unpack_add_of_infinite hinfinite hw]
      rfl
    rw [htop]
    exact le_top

end

end PackedGraph
