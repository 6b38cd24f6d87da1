import Mathlib.Data.Nat.Log
import PackedGraph.Codec.Varint

/-!
# Words are read back

What `encode` appends is the chunk list of the word.  A byte string is *terminated* when it ends with its first
high byte; its digits make up a number, which `decodeFrom` finds wherever the string stands, whatever stands
before and behind it.  The chunks of a word are such a string, and the word is its number.

Main statements: `decodeFrom_of_terminated` reads a string and `decode_of_holdsAt` a word back, `encodedSize_eq`
gives the length of a word in bytes.
-/

namespace PackedGraph

/-- Some content stands in a byte string from a position on. -/
def HoldsAt (bytes : Array UInt8) (pos : Nat) (content : List UInt8) : Prop :=
  content <+: bytes.toList.drop pos

/-! ## Content at a position -/

theorem holdsAt_nil (bytes : Array UInt8) (pos : Nat) : HoldsAt bytes pos [] :=
  List.nil_prefix

/-- The first byte of a content stands at its position and the rest behind it. -/
theorem holdsAt_cons {bytes : Array UInt8} {pos : Nat} {b : UInt8} {content : List UInt8}
    (h : HoldsAt bytes pos (b :: content)) :
    ∃ hpos : pos < bytes.size, bytes[pos] = b ∧ HoldsAt bytes (pos + 1) content := by
  obtain ⟨rest, hrest⟩ := h
  have hlt : pos < bytes.toList.length := by
    by_contra hge
    rw [List.drop_eq_nil_of_le (not_lt.mp hge)] at hrest
    exact absurd hrest (by simp)
  rw [List.drop_eq_getElem_cons hlt, List.cons_append, List.cons.injEq] at hrest
  exact ⟨by simpa using hlt, by simpa using hrest.1.symm, ⟨rest, hrest.2⟩⟩

theorem holdsAt_append {bytes : Array UInt8} {pos : Nat} {first second : List UInt8}
    (h : HoldsAt bytes pos (first ++ second)) :
    HoldsAt bytes pos first ∧ HoldsAt bytes (pos + first.length) second := by
  obtain ⟨rest, hrest⟩ := h
  refine ⟨⟨second ++ rest, by rw [← List.append_assoc, hrest]⟩, ⟨rest, ?_⟩⟩
  rw [← List.drop_drop, ← hrest, List.append_assoc, List.drop_left]

theorem size_append_bytes (before : Array UInt8) (content : List UInt8) :
    (before ++ content).size = before.size + content.length := by
  rw [← Array.length_toList, Array.toList_appendList, List.length_append, Array.length_toList]

/-- Content stays where it is when more is appended. -/
theorem holdsAt_push {bytes : Array UInt8} {pos : Nat} {content : List UInt8}
    (h : HoldsAt bytes pos content) (hne : content ≠ []) (more : List UInt8) :
    HoldsAt (bytes ++ more) pos content := by
  obtain ⟨rest, hrest⟩ := h
  refine ⟨rest ++ more, ?_⟩
  have hpos : pos ≤ bytes.toList.length := by
    by_contra hgt
    rw [List.drop_eq_nil_of_le (by omega)] at hrest
    exact hne (List.append_eq_nil_iff.mp hrest).1
  rw [Array.toList_appendList, List.drop_append_of_le_length hpos, ← hrest, List.append_assoc]

/-- What is appended stands behind what was there. -/
theorem holdsAt_end (bytes : Array UInt8) (content : List UInt8) :
    HoldsAt (bytes ++ content) bytes.size content :=
  ⟨[], by simp⟩

namespace Varint

/-! ## The chunks of a number -/

theorem chunks_ne_nil (n : Nat) : chunks n ≠ [] := by
  rw [chunks]
  split <;> simp

/-- A digit is below 128 and leaves its byte's high bit free. -/
theorem toNat_digit {n : Nat} (h : n < 256) : (UInt8.ofNat n).toNat = n := by
  rw [UInt8.toNat_ofNat']
  exact Nat.mod_eq_of_lt h

/-- Encoding appends the chunks of the word. -/
theorem encode_eq (out : Array UInt8) (value : UInt64) :
    encode out value = out ++ chunks value.toNat := by
  unfold encode
  rw [← Array.appendList_eq_append]
  rfl

theorem log2_div_128 {n : Nat} (h : 128 ≤ n) : (n / 128).log2 + 7 = n.log2 := by
  rw [Nat.log2_eq_log_two, Nat.log2_eq_log_two, show (128 : Nat) = 2 ^ 7 from rfl,
    Nat.log_div_base_pow]
  have : 7 ≤ Nat.log 2 n := Nat.le_log_of_pow_le (by decide) h
  omega

/-- A number has one chunk for every seven of its bits. -/
theorem length_chunks (n : Nat) :
    (chunks n).length = if n = 0 then 1 else (n.log2 + 1 + 6) / 7 := by
  induction n using Nat.strongRecOn with
  | ind n ih =>
    rw [chunks]
    split
    case isTrue h =>
      have hlog : n.log2 < 7 ∨ n = 0 := by
        by_cases h0 : n = 0
        · exact Or.inr h0
        · exact Or.inl ((Nat.log2_lt h0).mpr h)
      rw [List.length_singleton]
      split <;> omega
    case isFalse h =>
      have hdiv : n / 128 ≠ 0 := by omega
      have hlog := log2_div_128 (not_lt.mp h)
      rw [List.length_cons, ih (n / 128) (by omega), if_neg hdiv, if_neg (by omega)]
      omega

/-- The size that is announced for a word is the length of its chunks. -/
theorem encodedSize_eq (value : UInt64) : encodedSize value = (chunks value.toNat).length := by
  rw [length_chunks, encodedSize]

/-- A word takes at most ten bytes, and ten only from `2 ^ 63` on. -/
theorem length_chunks_le {n : Nat} (h : n < 18446744073709551616) :
    (chunks n).length ≤ if n < 9223372036854775808 then 9 else 10 := by
  rw [length_chunks]
  by_cases hzero : n = 0
  · simp [hzero]
  · rw [if_neg hzero]
    split
    · have := (Nat.log2_lt hzero).mpr (show n < 2 ^ 63 by omega)
      omega
    · have := (Nat.log2_lt hzero).mpr (show n < 2 ^ 64 by omega)
      omega

/-! ## Terminated strings -/

/-- A byte string that ends with its first high byte. -/
inductive Terminated : List UInt8 → Prop
  /-- A high byte ends a string. -/
  | last {byte : UInt8} (high : 128 ≤ byte.toNat) : Terminated [byte]
  /-- A low byte has more bytes behind it. -/
  | more {byte : UInt8} {rest : List UInt8} (low : byte.toNat < 128) (ends : Terminated rest) :
    Terminated (byte :: rest)

/-- The number that the digits of some bytes make up. -/
def number : List UInt8 → Nat
  | [] => 0
  | byte :: rest => byte.toNat % 128 + 128 * number rest

theorem terminated_chunks (n : Nat) : Terminated (chunks n) := by
  induction n using Nat.strongRecOn with
  | ind n ih =>
    rw [chunks]
    by_cases h : n < 128
    · rw [dif_pos h]
      exact .last (by rw [toNat_digit (by omega)]; omega)
    · have hdigit : n % 128 < 128 := Nat.mod_lt _ (by decide)
      rw [dif_neg h]
      exact .more (by rwa [toNat_digit (by omega)]) (ih (n / 128) (by omega))

/-- The digits that are written for a number make it up. -/
theorem number_chunks (n : Nat) : number (chunks n) = n := by
  induction n using Nat.strongRecOn with
  | ind n ih =>
    rw [chunks]
    by_cases h : n < 128
    · rw [dif_pos h, number, number, toNat_digit (by omega)]
      omega
    · have hdigit : n % 128 < 128 := Nat.mod_lt _ (by decide)
      rw [dif_neg h, number, ih (n / 128) (by omega), toNat_digit (by omega), Nat.mod_mod, Nat.mod_add_div]

/-! ## Reading back -/

/-- Reading a terminated string adds its number, at its scale, to what has been added up before. -/
theorem decodeFrom_of_terminated {bytes : Array UInt8} {content : List UInt8} (h : Terminated content) :
    ∀ {scale value pos : Nat}, HoldsAt bytes pos content →
      decodeFrom bytes scale value pos = some (value + number content * scale, pos + content.length) := by
  induction h with
  | last high =>
    intro scale value pos hholds
    obtain ⟨hpos, hbyte, -⟩ := holdsAt_cons hholds
    rw [decodeFrom, dif_pos hpos]
    simp only [hbyte, if_pos high]
    simp [number]
  | more low ends ih =>
    intro scale value pos hholds
    obtain ⟨hpos, hbyte, hbehind⟩ := holdsAt_cons hholds
    rw [decodeFrom, dif_pos hpos]
    simp only [hbyte, if_neg (not_le.mpr low)]
    rw [ih hbehind, number, List.length_cons, Nat.add_mul, Nat.add_assoc value, Nat.add_assoc pos,
      Nat.add_comm 1, Nat.mul_comm 128 (number _), Nat.mul_assoc]

/-- A word is read back from wherever its chunks stand. -/
theorem decode_of_holdsAt {bytes : Array UInt8} {pos : Nat} {value : UInt64}
    (h : HoldsAt bytes pos (chunks value.toNat)) :
    decode bytes pos = some (value, pos + (chunks value.toNat).length) := by
  rw [decode, decodeFrom_of_terminated (terminated_chunks _) h, number_chunks]
  simp

end Varint

end PackedGraph
