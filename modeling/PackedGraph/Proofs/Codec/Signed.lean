import PackedGraph.Proofs.Codec.Sequences

/-!
# Signed sequences are restored from their differences

Zigzagging numbers the signed words by their magnitude, so it can be undone and never puts a word in front of
one of smaller magnitude.  Differences are taken modulo `2 ^ 64`, as the sums are that undo them, so a signed
sequence is restored however far its neighbours lie apart; no code word stands for a missing place.

Main statements: `zigzag_word` and `unzigzag_word` compute the numbering by shifts,
`decodeSignedFrom_of_holdsAt` reads a sequence, and `signed_sequences_in_place` puts them together.
-/

namespace PackedGraph.Varint

/-! ## The numbering of signed words -/

theorem toNat_zigzag (value : Int64) :
    (zigzag value).toNat =
      if 0 ≤ value.toInt then 2 * value.toInt.natAbs else 2 * value.toInt.natAbs - 1 := by
  have hleast := value.le_toInt
  have hmost := value.toInt_lt
  rw [zigzag]
  split
  case isTrue hsign =>
    rw [UInt64.toNat_ofNat_of_lt' (show _ < 2 ^ 64 by omega)]
    omega
  case isFalse hsign =>
    rw [UInt64.toNat_ofNat_of_lt' (show _ < 2 ^ 64 by omega)]
    omega

theorem toInt_unzigzag (word : UInt64) :
    (unzigzag word).toInt =
      if word.toNat % 2 = 0 then (word.toNat / 2 : Int) else -(word.toNat / 2 : Int) - 1 := by
  have hmost := word.toNat_lt
  rw [unzigzag]
  split
  case isTrue heven => exact Int64.toInt_ofInt_of_le (by omega) (by omega)
  case isFalse hodd => exact Int64.toInt_ofInt_of_le (by omega) (by omega)

theorem unzigzag_zigzag (value : Int64) : unzigzag (zigzag value) = value := by
  rw [← Int64.toInt_inj, toInt_unzigzag, toNat_zigzag]
  by_cases hsign : 0 ≤ value.toInt
  · rw [if_pos hsign]
    split <;> omega
  · rw [if_neg hsign]
    split <;> omega

theorem zigzag_unzigzag (word : UInt64) : zigzag (unzigzag word) = word := by
  rw [← UInt64.toNat_inj, toNat_zigzag, toInt_unzigzag]
  by_cases heven : word.toNat % 2 = 0
  · rw [if_pos heven]
    split <;> omega
  · rw [if_neg heven]
    split <;> omega

/-- Words of smaller magnitude come first. -/
theorem zigzag_le_zigzag {a b : Int64} (h : a.toInt.natAbs < b.toInt.natAbs) : zigzag a ≤ zigzag b := by
  rw [UInt64.le_iff_toNat_le, toNat_zigzag, toNat_zigzag]
  split <;> split <;> omega

/-! ## The numbering by shifts -/

/-- Shifting by all other bits fills a word with its sign. -/
theorem toBitVec_shiftRight_sign (value : Int64) :
    (value >>> 63).toBitVec = if 0 ≤ value.toInt then 0#64 else BitVec.allOnes 64 := by
  have hleast := value.le_toInt
  have hmost := value.toInt_lt
  have hshift : ((63 : Int64).toBitVec.smod 64).toNat = 63 := by decide
  rw [Int64.toBitVec_shiftRight, BitVec.sshiftRight', hshift, BitVec.sshiftRight_eq, Int64.toInt_toBitVec,
    Int.shiftRight_eq_div_pow]
  split
  case isTrue hsign =>
    rw [show value.toInt / ((2 ^ 63 : Nat) : Int) = 0 by omega]
    rfl
  case isFalse hsign =>
    rw [show value.toInt / ((2 ^ 63 : Nat) : Int) = -1 by omega]
    rfl

/-- A word is doubled, and all its bits are turned over if it is negative. -/
theorem zigzag_word (value : Int64) : zigzag value = ((value >>> 63) ^^^ (value <<< 1)).toUInt64 := by
  have hleast := value.le_toInt
  have hmost := value.toInt_lt
  have hshift : ((1 : Int64).toBitVec.smod 64).toNat = 1 := by decide
  have hword : value.toInt = if 2 * value.toBitVec.toNat < 2 ^ 64 then (value.toBitVec.toNat : Int)
      else value.toBitVec.toNat - 2 ^ 64 := by
    rw [← Int64.toInt_toBitVec, BitVec.toInt_eq_toNat_cond]
    rfl
  have hdouble : (value <<< 1).toBitVec.toNat = 2 * value.toBitVec.toNat % 2 ^ 64 := by
    rw [Int64.toBitVec_shiftLeft, BitVec.shiftLeft_eq', hshift, BitVec.toNat_shiftLeft, Nat.shiftLeft_eq,
      Nat.mul_comm]
  have hlt := value.toBitVec.isLt
  rw [← UInt64.toNat_inj, toNat_zigzag]
  change _ = ((value >>> 63) ^^^ (value <<< 1)).toBitVec.toNat
  rw [Int64.toBitVec_xor, toBitVec_shiftRight_sign]
  split
  case isTrue hsign =>
    rw [BitVec.zero_xor, hdouble]
    omega
  case isFalse hsign =>
    rw [BitVec.allOnes_xor, BitVec.toNat_not, hdouble]
    omega

/-- A number is halved, and all bits are turned over if it is odd. -/
theorem unzigzag_word (word : UInt64) :
    unzigzag word = (word >>> 1).toInt64 ^^^ -(word &&& 1).toInt64 := by
  have hmost := word.toNat_lt
  have hhalf : (word >>> 1).toInt64.toBitVec.toNat = word.toNat / 2 := by
    change (word >>> 1).toNat = word.toNat / 2
    rw [UInt64.toNat_shiftRight, Nat.shiftRight_eq_div_pow]
    rfl
  have hbit : (word &&& 1).toNat = word.toNat % 2 := by
    rw [UInt64.toNat_and]
    exact Nat.and_two_pow_sub_one_eq_mod word.toNat 1
  rw [← Int64.toInt_inj, toInt_unzigzag, ← Int64.toInt_toBitVec (_ ^^^ _), BitVec.toInt_eq_toNat_cond,
    Int64.toBitVec_xor]
  split
  case isTrue heven =>
    have hzero : word &&& 1 = 0 := by
      rw [← UInt64.toNat_inj, hbit, heven]
      rfl
    rw [hzero, show (-(0 : UInt64).toInt64).toBitVec = 0#64 from rfl, BitVec.xor_zero, hhalf, if_pos (by omega)]
    omega
  case isFalse hodd =>
    have hone : word &&& 1 = 1 := by
      rw [← UInt64.toNat_inj, hbit]
      exact Nat.mod_two_ne_zero.mp hodd
    rw [hone, show (-(1 : UInt64).toInt64).toBitVec = BitVec.allOnes 64 from rfl, BitVec.xor_allOnes,
      BitVec.toNat_not, hhalf, if_neg (by omega)]
    omega

/-! ## Sequences -/

/-- The code words of a sequence, its first difference taken from `previous`. -/
def differences (previous : Int64) : List Int64 → List UInt64
  | [] => []
  | value :: rest => zigzag (value - previous) :: differences value rest

/-- The bytes of a sequence; a code word is written whatever it is. -/
def signedBytes (previous : Int64) (values : List Int64) : List UInt8 :=
  (differences previous values).flatMap fun word => chunks word.toNat

theorem signedBytes_cons (previous value : Int64) (rest : List Int64) :
    signedBytes previous (value :: rest) =
      chunks (zigzag (value - previous)).toNat ++ signedBytes value rest := by
  rw [signedBytes, differences, List.flatMap_cons, ← signedBytes]

/-- Encoding appends the bytes of the sequence. -/
theorem encodeSignedFrom_eq (out : Array UInt8) (previous : Int64) (values : List Int64) :
    encodeSignedFrom out previous values = out ++ signedBytes previous values := by
  induction values generalizing out previous with
  | nil => simp [encodeSignedFrom, signedBytes, differences]
  | cons value rest ih =>
    rw [encodeSignedFrom, ih, encode_eq, signedBytes_cons]
    apply Array.ext'
    simp

theorem writeSigned_eq (before : Array UInt8) (values : List Int64) :
    writeSigned before values = ((signedBytes 0 values).length, before ++ signedBytes 0 values) := by
  rw [writeSigned, encodeSigned, encodeSignedFrom_eq, size_append_bytes, Nat.add_sub_cancel_left]

/-- A sequence is read back from wherever its bytes stand. -/
theorem decodeSignedFrom_of_holdsAt {bytes : Array UInt8} (values : List Int64) :
    ∀ {previous : Int64} {pos : Nat} (found : Array Int64), HoldsAt bytes pos (signedBytes previous values) →
      decodeSignedFrom bytes found previous values.length pos =
        some (found ++ values, pos + (signedBytes previous values).length) := by
  induction values with
  | nil =>
    intro previous pos found _
    simp [decodeSignedFrom, signedBytes, differences]
  | cons value rest ih =>
    intro previous pos found hbytes
    rw [signedBytes_cons] at hbytes ⊢
    obtain ⟨hfirst, hrest⟩ := holdsAt_append hbytes
    have hsum : previous + unzigzag (zigzag (value - previous)) = value := by
      rw [unzigzag_zigzag, Int64.add_comm, Int64.sub_add_cancel]
    rw [List.length_cons, decodeSignedFrom, decode_of_holdsAt hfirst]
    simp only [hsum]
    rw [ih (found.push value) hrest, List.length_append, Nat.add_assoc]
    simp

/-- **Signed sequences are restored.**  A sequence has bytes of its own, which are appended to what was there,
and their number is returned; whatever stands in front and behind, reading as many words as there are gives
the sequence and the position behind its bytes.  The numbering by magnitude, computed by shifts, is undone
by its inverse on either side, and words of smaller magnitude come first. -/
theorem signed_sequences_in_place :
    (∀ values : List Int64, ∃ bytes : List UInt8, ∀ before : Array UInt8,
      writeSigned before values = (bytes.length, before ++ bytes) ∧
        ∀ behind : List UInt8,
          decodeSigned (before ++ bytes ++ behind) before.size values.length =
            some (values, before.size + bytes.length)) ∧
    (∀ value : Int64, zigzag value = ((value >>> 63) ^^^ (value <<< 1)).toUInt64 ∧
      unzigzag (zigzag value) = value) ∧
    (∀ word : UInt64, unzigzag word = (word >>> 1).toInt64 ^^^ -(word &&& 1).toInt64 ∧
      zigzag (unzigzag word) = word) ∧
    ∀ a b : Int64, a.toInt.natAbs < b.toInt.natAbs → zigzag a ≤ zigzag b := by
  refine ⟨fun values => ⟨signedBytes 0 values, fun before => ⟨writeSigned_eq before values, fun behind => ?_⟩⟩,
    fun value => ⟨zigzag_word value, unzigzag_zigzag value⟩,
    fun word => ⟨unzigzag_word word, zigzag_unzigzag word⟩, fun _ _ h => zigzag_le_zigzag h⟩
  rw [decodeSigned, decodeSignedFrom_of_holdsAt values #[] (holdsAt_between before _ behind)]
  simp

/-- The two ends of the range next to each other: their difference wraps to minus one, and the least word has
the greatest magnitude. -/
theorem signed_sequence_of_both_ends :
    (∃ bytes : List UInt8,
      writeSigned #[7] [-9223372036854775808, 9223372036854775807] =
        (bytes.length, (#[7] : Array UInt8) ++ bytes) ∧
      decodeSigned ((#[7] : Array UInt8) ++ bytes ++ ([1, 2] : List UInt8)) 1 2 =
        some ([-9223372036854775808, 9223372036854775807], 1 + bytes.length)) ∧
    (9223372036854775807 : Int64).toInt.natAbs < (-9223372036854775808 : Int64).toInt.natAbs ∧
    zigzag 9223372036854775807 ≤ zigzag (-9223372036854775808) := by
  have hmagnitude : (9223372036854775807 : Int64).toInt.natAbs < (-9223372036854775808 : Int64).toInt.natAbs := by
    decide
  obtain ⟨hsequences, -, -, hle⟩ := signed_sequences_in_place
  obtain ⟨bytes, hbytes⟩ := hsequences [-9223372036854775808, 9223372036854775807]
  obtain ⟨hwritten, hread⟩ := hbytes #[7]
  exact ⟨⟨bytes, hwritten, hread [1, 2]⟩, hmagnitude, hle _ _ hmagnitude⟩

end PackedGraph.Varint
