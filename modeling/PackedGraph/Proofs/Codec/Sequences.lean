import PackedGraph.Proofs.Codec.Gaps

/-!
# Words are read back in place

The bytes of a sequence are the same wherever they are appended.  They are as many as is announced, and
reading as many words as the sequence has gives these words and the position behind their bytes, whatever
stands in front and behind.

Main statements: `encode_loop`, which is one turn of the loop that encodes a word by shifting it, and
`values_in_place`.
-/

namespace PackedGraph.Varint

/-! ## One word, digit by digit -/

/-- The last byte of a word is its last digit with the high bit set. -/
theorem last_byte {value : UInt64} (h : value.toNat < 128) :
    value.toUInt8 ||| 128 = UInt8.ofNat (value.toNat + 128) := by
  rw [← UInt8.toNat_inj, UInt8.toNat_or, toNat_digit (by omega), UInt64.toNat_toUInt8,
    Nat.mod_eq_of_lt (show value.toNat < 2 ^ 8 by omega)]
  have hor : 2 ^ 7 * 1 + value.toNat = 2 ^ 7 * 1 ||| value.toNat := Nat.two_pow_add_eq_or_of_lt h 1
  exact (Nat.or_comm _ _).trans (hor.symm.trans (Nat.add_comm _ _))

/-- All other bytes are the digits below them. -/
theorem next_byte (value : UInt64) : (value &&& 127).toUInt8 = UInt8.ofNat (value.toNat % 128) := by
  have hmask : (value &&& 127).toNat = value.toNat % 128 := by
    rw [UInt64.toNat_and]
    exact Nat.and_two_pow_sub_one_eq_mod value.toNat 7
  have := Nat.mod_lt value.toNat (show 0 < 128 by decide)
  rw [← UInt8.toNat_inj, toNat_digit (by omega), UInt64.toNat_toUInt8, hmask]
  exact Nat.mod_eq_of_lt (by omega)

/-- A word is encoded by shifting: what does not fit into seven bits leaves its lowest seven and goes on
with the others. -/
theorem encode_loop (out : Array UInt8) (value : UInt64) :
    encode out value =
      if 127 < value then encode (out.push (value &&& 127).toUInt8) (value >>> 7)
      else out.push (value.toUInt8 ||| 128) := by
  have hlarge : 127 < value ↔ ¬ value.toNat < 128 := by
    rw [UInt64.lt_iff_toNat_lt, show (127 : UInt64).toNat = 127 from rfl]
    omega
  rw [encode_eq, chunks]
  by_cases h : value.toNat < 128
  · rw [dif_pos h, if_neg (fun hlt => hlarge.mp hlt h), last_byte h]
    rfl
  · have hshift : (value >>> 7).toNat = value.toNat / 128 := by
      rw [UInt64.toNat_shiftRight, Nat.shiftRight_eq_div_pow]
      rfl
    rw [dif_neg h, if_pos (hlarge.mpr h), next_byte, encode_eq, hshift]
    apply Array.ext'
    simp

theorem one_le_encodedSize (value : UInt64) : 1 ≤ encodedSize value := by
  rw [encodedSize_eq]
  exact List.length_pos_of_ne_nil (chunks_ne_nil _)

theorem encodedSize_le (value : UInt64) : encodedSize value ≤ maxEncodedSize := by
  rw [encodedSize_eq]
  refine (length_chunks_le value.toNat_lt).trans ?_
  rw [maxEncodedSize]
  split <;> omega

/-! ## Sequences -/

/-- The bytes of a sequence are those of its words. -/
theorem wordBytes_eq_kept (values : List UInt64) :
    wordBytes values = (kept values).flatMap fun value => chunks value.toNat := rfl

/-- Words are read back one after the other. -/
theorem decodeValuesFrom_of_holdsAt {bytes : Array UInt8} (words : List UInt64) :
    ∀ {pos : Nat} (found : Array UInt64),
      HoldsAt bytes pos (words.flatMap fun value => chunks value.toNat) →
      decodeValuesFrom bytes found words.length pos =
        some (found ++ words, pos + (words.flatMap fun value => chunks value.toNat).length) := by
  induction words with
  | nil =>
    intro pos found _
    simp [decodeValuesFrom]
  | cons word words ih =>
    intro pos found hbytes
    rw [List.flatMap_cons] at hbytes ⊢
    obtain ⟨hfirst, hrest⟩ := holdsAt_append hbytes
    rw [List.length_cons, decodeValuesFrom, decode_of_holdsAt hfirst]
    simp only
    rw [ih (found.push word) hrest, List.length_append, Nat.add_assoc]
    simp

/-- Content that is appended stands at the end of what was there, whatever is appended to it. -/
theorem holdsAt_between (before : Array UInt8) (content behind : List UInt8) :
    HoldsAt (before ++ content ++ behind) before.size content :=
  ⟨behind, by simp⟩

theorem writeValues_eq (before : Array UInt8) (values : List UInt64) :
    writeValues before values = (encodedSizeOf values, before ++ wordBytes values) := by
  rw [writeValues, encodeValues_eq, encodedSizeOf_eq, size_append_bytes, Nat.add_sub_cancel_left]

theorem write_eq (before : Array UInt8) (value : UInt64) :
    write before value = (encodedSize value, before ++ chunks value.toNat) := by
  rw [write, encode_eq, encodedSize_eq, size_append_bytes, Nat.add_sub_cancel_left]

/-- **Words are read back in place.**  A sequence has bytes of its own, as many as is announced.  Wherever
they are written they are appended to what was there, and their number is returned; and whatever is written
behind them, reading as many words as there are gives these words in order and the position behind them.
The same holds of every single word, which takes from one to ten bytes, the largest word taking ten. -/
theorem values_in_place :
    (∀ values : List UInt64, ∃ bytes : List UInt8, bytes.length = encodedSizeOf values ∧
      ∀ before : Array UInt8, writeValues before values = (encodedSizeOf values, before ++ bytes) ∧
        ∀ behind : List UInt8,
          decodeValues (before ++ bytes ++ behind) before.size (keptCount values) =
            some (values.filter (· ≠ absent), before.size + encodedSizeOf values)) ∧
    (∀ value : UInt64, ∃ bytes : List UInt8, bytes.length = encodedSize value ∧
      (1 ≤ encodedSize value ∧ encodedSize value ≤ maxEncodedSize) ∧
      ∀ before : Array UInt8, write before value = (encodedSize value, before ++ bytes) ∧
        ∀ behind : List UInt8,
          decode (before ++ bytes ++ behind) before.size = some (value, before.size + encodedSize value)) ∧
    encodedSize 18446744073709551615 = 10 := by
  refine ⟨fun values => ?_, fun value => ?_, by decide +kernel⟩
  · refine ⟨wordBytes values, (encodedSizeOf_eq values).symm, fun before => ⟨writeValues_eq before values, ?_⟩⟩
    intro behind
    rw [decodeValues, keptCount_eq_length, encodedSizeOf_eq, wordBytes_eq_kept,
      decodeValuesFrom_of_holdsAt (kept values) #[] (holdsAt_between before _ behind)]
    simp [kept]
  · refine ⟨chunks value.toNat, (encodedSize_eq value).symm, ⟨one_le_encodedSize value, encodedSize_le value⟩,
      fun before => ⟨write_eq before value, fun behind => ?_⟩⟩
    rw [decode_of_holdsAt (holdsAt_between before (chunks value.toNat) behind), encodedSize_eq]

end PackedGraph.Varint
