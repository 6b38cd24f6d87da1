import PackedGraph.Proofs.Numeric.Extremes
import PackedGraph.Proofs.Numeric.Signs

/-!
# Changing signs, infinities included

Packing is the inverse of unpacking, so every double is what its unpacked form is packed to.  From that what
`Signs` says of numbers extends to the infinities: times one nothing changes, and times minus one the places
of all doubles that are not NaNs are turned around.

Main statements: `pack_unpack`, `unchanged_times_one`, `unchanged_times_minus_one_twice` and
`times_minus_one_le_iff`.
-/

namespace PackedGraph

open Float.Model (Format UnpackedFloat)
open Float.Model.UnpackedFloat

/-! ## Packing what was unpacked -/

section Bits

variable (b : BitVec Format.binary64.numBits)

theorem toNat_unpackMantissa : (unpackMantissa b).toNat = b.toNat % 2 ^ 52 := by
  delta unpackMantissa
  rw [BitVec.toNat_cast, BitVec.extractLsb_toNat, Nat.shiftRight_zero]
  rfl

theorem toNat_unpackExponent : (unpackExponent b).toNat = b.toNat / 2 ^ 52 % 2 ^ 11 := by
  delta unpackExponent
  rw [BitVec.toNat_cast, BitVec.extractLsb_toNat, Nat.shiftRight_eq_div_pow]
  rfl

theorem toNat_unpackSign : (unpackSign b).toNat = b.toNat / 2 ^ 63 := by
  have hbound : b.toNat < 2 ^ 64 := b.isLt
  delta unpackSign
  rw [BitVec.toNat_cast, BitVec.extractLsb_toNat, Nat.shiftRight_eq_div_pow]
  change b.toNat / 2 ^ 63 % 2 = _
  omega

/-- The three fields of a double make it up. -/
theorem packComponents_unpack :
    packComponents .binary64 (Sign.ofBitVec (unpackSign b)) (unpackExponent b) (unpackMantissa b) = b := by
  have hsign : ∀ v : BitVec 1, (Sign.ofBitVec v).toBitVec = v := by decide
  delta packComponents
  rw [hsign]
  refine BitVec.eq_of_toNat_eq ?_
  rw [BitVec.toNat_append, BitVec.toNat_append, ← Nat.shiftLeft_add_eq_or_of_lt (unpackExponent b).isLt,
    ← Nat.shiftLeft_add_eq_or_of_lt (unpackMantissa b).isLt, Nat.shiftLeft_eq, Nat.shiftLeft_eq,
    toNat_unpackMantissa, toNat_unpackExponent, toNat_unpackSign]
  change (b.toNat / 2 ^ 63 * 2 ^ 11 + b.toNat / 2 ^ 52 % 2 ^ 11) * 2 ^ 52 + b.toNat % 2 ^ 52 = b.toNat
  omega

variable {b}

/-- A subnormal number has fewer than 53 bits and the least exponent. -/
theorem pack_subnormal (hexponent : unpackExponent b = 0) (hpos : 0 < (unpackMantissa b).toNat) :
    pack .binary64 (.finite (Sign.ofBitVec (unpackSign b)) (unpackMantissa b).toNat
      ((unpackExponent b).toNat - 1075 + 1) hpos) = b := by
  have hzero : (unpackExponent b).toNat = 0 := congrArg BitVec.toNat hexponent
  have hlog : (unpackMantissa b).toNat.log2 < 52 :=
    (Nat.log2_lt (Nat.ne_of_gt hpos)).mpr (unpackMantissa b).isLt
  rw [pack]
  simp only [show Format.binary64.exponentBias = 1023 from rfl,
    show Format.binary64.mantissaBits = 53 from rfl, hzero]
  rw [if_neg (by decide), if_neg (by omega), BitVec.ofNat_toNat, BitVec.setWidth_eq]
  refine Eq.trans ?_ (packComponents_unpack b)
  rw [hexponent]
  rfl

/-- A normal number has 53 bits, of which the first is not stored. -/
theorem pack_normal (hexponent : (unpackExponent b).toNat < 2047)
    (hpos : 0 < (1#1 ++ unpackMantissa b).toNat) :
    pack .binary64 (.finite (Sign.ofBitVec (unpackSign b)) (1#1 ++ unpackMantissa b).toNat
      ((unpackExponent b).toNat - 1075) hpos) = b := by
  obtain ⟨hlow, hhigh⟩ := leading_append_bounds (unpackMantissa b)
  have hlog : (1#1 ++ unpackMantissa b).toNat.log2 = 52 :=
    (Nat.log2_eq_iff (Nat.ne_of_gt hpos)).mpr ⟨hlow, hhigh⟩
  have hfraction : BitVec.ofNat 52 (1#1 ++ unpackMantissa b).toNat = unpackMantissa b := by
    have hmantissa : (unpackMantissa b).toNat < 2 ^ 52 := (unpackMantissa b).isLt
    refine BitVec.eq_of_toNat_eq ?_
    rw [BitVec.toNat_ofNat, BitVec.toNat_append, ← Nat.shiftLeft_add_eq_or_of_lt (unpackMantissa b).isLt]
    change ((1 <<< 52) + (unpackMantissa b).toNat) % 2 ^ 52 = _
    rw [Nat.shiftLeft_eq]
    omega
  have hbiased : (((unpackExponent b).toNat : Int) - 1075 + (1023 : Nat) + (52 : Nat)).toNat =
      (unpackExponent b).toNat := by omega
  rw [pack]
  simp only [show Format.binary64.exponentBias = 1023 from rfl,
    show Format.binary64.mantissaBits = 53 from rfl, hlog]
  rw [hbiased, if_neg (by omega), if_pos trivial, BitVec.ofNat_toNat, BitVec.setWidth_eq]
  exact (congrArg _ hfraction).trans (packComponents_unpack b)

/-- Whatever the bits stand for is packed to the same bits. -/
theorem pack_unpack_bits (h : Format.binary64.Valid b) : pack .binary64 (unpack .binary64 b) = b := by
  have hbits := packComponents_unpack b
  rw [unpack]
  simp only [show Format.binary64.exponentBias = 1023 from rfl]
  split
  · rename_i hones
    split
    · rename_i hzero
      rw [hones, hzero] at hbits
      exact hbits
    · rename_i hnonzero
      exact (h.eq_packedNaN hones hnonzero).symm
  · rename_i hones
    split
    · rename_i hzero
      split
      · rename_i hnone
        rw [hzero, hnone] at hbits
        exact hbits
      · rename_i hsome
        have hpos : (unpackMantissa b).toNat ≠ 0 := fun h => hsome (BitVec.eq_of_toNat_eq h)
        exact pack_subnormal hzero (Nat.pos_of_ne_zero hpos)
    · have hbound : (unpackExponent b).toNat < 2048 := (unpackExponent b).isLt
      have hlast : (unpackExponent b).toNat ≠ 2047 := fun h => hones (BitVec.eq_of_toNat_eq h)
      exact pack_normal (by omega) _

end Bits

variable {x y : Float} {u v : UnpackedFloat}

/-- Every double is what its unpacked form is packed to. -/
theorem pack_unpack (x : Float) : Float.ofModel (.pack x.toModel.unpack) = x := by
  obtain ⟨bits, hvalid⟩ := x
  refine congrArg Float.ofModel ?_
  rw [Float.Model.pack, Float.Model.mk.injEq, Float.Model.unpack, pack_unpack_bits hvalid]

/-! ## Products with one and with minus one -/

theorem unpack_pack_of_placed (h : Placed u) : (Float.Model.pack u).unpack = u := by
  rcases h with ⟨sign, rfl⟩ | h
  · cases sign <;> rfl
  · exact unpack_pack_of_number h

theorem placed_neg (h : Placed u) : Placed (neg u) := by
  rcases h with ⟨sign, rfl⟩ | h
  · exact .inl ⟨-sign, rfl⟩
  · exact .inr (number_neg h)

/-- Times one nothing changes. -/
theorem unchanged_times_one (h : x.isNaN = false) : x * 1 = x := by
  rcases placed_of_not_isNaN h with ⟨sign, hu⟩ | hu
  · rw [← pack_unpack x, hu]
    change Float.ofModel (.pack (mul .binary64 (Float.Model.pack (.infinity sign)).unpack _)) = _
    rw [unpack_pack_of_placed (.inl ⟨sign, rfl⟩), unpack_one]
    cases sign <;> rfl
  · exact times_one ⟨_, hu, (pack_unpack x).symm⟩

theorem times_minus_one_placed (h : Placed u) :
    Float.ofModel (.pack u) * -1 = .ofModel (.pack (neg u)) := by
  rcases h with ⟨sign, rfl⟩ | h
  · change Float.ofModel (.pack (mul .binary64 (Float.Model.pack (.infinity sign)).unpack _)) = _
    rw [unpack_pack_of_placed (.inl ⟨sign, rfl⟩), unpack_minus_one]
    cases sign <;> rfl
  · exact times_minus_one_eq h

theorem unpack_times_minus_one (h : x.isNaN = false) : (x * -1).toModel.unpack = neg x.toModel.unpack := by
  have hu := placed_of_not_isNaN h
  conv_lhs => rw [← pack_unpack x]
  rw [times_minus_one_placed hu]
  exact unpack_pack_of_placed (placed_neg hu)

/-- Changing the sign twice changes nothing. -/
theorem unchanged_times_minus_one_twice (h : x.isNaN = false) : x * -1 * -1 = x := by
  rcases placed_of_not_isNaN h with ⟨sign, hu⟩ | hu
  · rw [← pack_unpack x, hu, times_minus_one_placed (.inl ⟨sign, rfl⟩),
      times_minus_one_placed (placed_neg (.inl ⟨sign, rfl⟩))]
    cases sign <;> rfl
  · exact times_minus_one ⟨_, hu, (pack_unpack x).symm⟩

theorem isNaN_of_placed (h : Placed x.toModel.unpack) : x.isNaN = false := by
  change x.toModel.unpack.isNaN = false
  rcases h with ⟨sign, heq⟩ | h
  · rw [heq]
    rfl
  · generalize x.toModel.unpack = u at h
    cases u with
    | notANumber => exact absurd h id
    | infinity | zero | finite => rfl

theorem isNaN_times_minus_one (h : x.isNaN = false) : (x * -1).isNaN = false := by
  refine isNaN_of_placed ?_
  rw [unpack_times_minus_one h]
  exact placed_neg (placed_of_not_isNaN h)

/-! ## Order -/

theorem le_iff_place (hx : x.isNaN = false) (hy : y.isNaN = false) : x ≤ y ↔ place x ≤ place y := by
  change decide ((x.toModel.compare y.toModel).any (·.isLE) = true) = true ↔ _
  rw [decide_eq_true_iff, compare_eq_place hx hy, Option.any_some, ← compare_le_iff_le, Ordering.isLE_iff_ne_gt]

theorem unpackedValue_neg_eq (h : Number u) : unpackedValue (neg u) = -unpackedValue u := by
  cases u with
  | infinity | notANumber => exact absurd h id
  | zero s => simp [neg, unpackedValue]
  | finite s m e hpos => cases s <;> simp [neg, unpackedValue, Sign.apply]

/-- The places of two doubles with other signs are in the other order. -/
theorem unpackedPlace_neg_le_iff (hu : Placed u) (hv : Placed v) :
    unpackedPlace (neg u) ≤ unpackedPlace (neg v) ↔ unpackedPlace v ≤ unpackedPlace u := by
  have hcoe : ∀ q r : ℚ, valuePlace q ≤ valuePlace r ↔ q ≤ r := fun q r => by
    rw [← compare_le_iff_le, compare_valuePlace, compare_le_iff_le]
  rcases hu with ⟨sign, rfl⟩ | hu
  · rcases hv with ⟨sign', rfl⟩ | hv
    · cases sign <;> cases sign' <;> decide
    · obtain ⟨hlow, hhigh⟩ := valuePlace_bounds (unpackedValue v)
      obtain ⟨hlow', hhigh'⟩ := valuePlace_bounds (unpackedValue (neg v))
      rw [unpackedPlace_of_number hv, unpackedPlace_of_number (number_neg hv)]
      cases sign with
      | positive => exact iff_of_true hlow'.le hhigh.le
      | negative => exact iff_of_false hhigh'.not_ge hlow.not_ge
  · obtain ⟨hlow, hhigh⟩ := valuePlace_bounds (unpackedValue u)
    obtain ⟨hlow', hhigh'⟩ := valuePlace_bounds (unpackedValue (neg u))
    rw [unpackedPlace_of_number hu, unpackedPlace_of_number (number_neg hu)]
    rcases hv with ⟨sign, rfl⟩ | hv
    · cases sign with
      | positive => exact iff_of_false hlow'.not_ge hhigh.not_ge
      | negative => exact iff_of_true hhigh'.le hlow.le
    · rw [unpackedPlace_of_number hv, unpackedPlace_of_number (number_neg hv), hcoe, hcoe,
        unpackedValue_neg_eq hu, unpackedValue_neg_eq hv, neg_le_neg_iff]

/-- Times minus one turns the order around. -/
theorem times_minus_one_le_iff (hx : x.isNaN = false) (hy : y.isNaN = false) : x * -1 ≤ y * -1 ↔ y ≤ x := by
  rw [le_iff_place (isNaN_times_minus_one hx) (isNaN_times_minus_one hy), le_iff_place hy hx, place, place,
    unpack_times_minus_one hx, unpack_times_minus_one hy]
  exact unpackedPlace_neg_le_iff (placed_of_not_isNaN hx) (placed_of_not_isNaN hy)

end PackedGraph
