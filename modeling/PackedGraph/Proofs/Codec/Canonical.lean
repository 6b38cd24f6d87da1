import Mathlib.Algebra.GroupWithZero.Nat
import PackedGraph.Proofs.Codec.Sequences

/-!
# Every word has one shortest spelling

A terminated byte string of at most ten digits whose number is a word is a *spelling* of that word.  Of the
spellings of a word the encoder writes the one in which no zero stands behind the last digit that counts, and
all others are longer.

Main statements: `Terminated.eq_of_begins` tells where a string ends, `chunks_number` and
`length_chunks_number_lt` tell the strings that are written from the others, and `spellings_canonical` is about
words.
-/

namespace PackedGraph.Varint

/-! ## Terminated strings -/

/-- The last digit of a byte string. -/
def lastDigit (bytes : List UInt8) : Nat := (bytes.getLastD 0).toNat % 128

theorem Terminated.ne_nil {bytes : List UInt8} (h : Terminated bytes) : bytes ≠ [] := by
  cases h <;> simp

/-- Exactly the last byte of a terminated string is high. -/
theorem terminated_iff {bytes : List UInt8} :
    Terminated bytes ↔ bytes ≠ [] ∧
      ∀ index (h : index < bytes.length), 128 ≤ bytes[index].toNat ↔ index + 1 = bytes.length := by
  constructor
  · intro h
    refine ⟨h.ne_nil, ?_⟩
    induction h with
    | last high => simpa using high
    | more low ends ih =>
      have hpos := List.length_pos_of_ne_nil ends.ne_nil
      intro index hindex
      cases index with
      | zero =>
        rw [List.getElem_cons_zero, List.length_cons]
        omega
      | succ index =>
        rw [List.getElem_cons_succ, List.length_cons, Nat.succ_inj]
        exact ih index _
  · rintro ⟨hne, hhigh⟩
    induction bytes with
    | nil => exact absurd rfl hne
    | cons byte rest ih =>
      have hfirst := hhigh 0 (Nat.succ_pos _)
      rw [List.getElem_cons_zero, List.length_cons] at hfirst
      by_cases hrest : rest = []
      · subst hrest
        exact .last (hfirst.mpr rfl)
      · have hpos := List.length_pos_of_ne_nil hrest
        refine .more (by omega) (ih hrest fun index hindex => ?_)
        have hnext := hhigh (index + 1) (Nat.succ_lt_succ hindex)
        rwa [List.getElem_cons_succ, List.length_cons, Nat.succ_inj] at hnext

/-- A terminated string that begins another one is that string. -/
theorem Terminated.eq_of_begins {bytes other : List UInt8} (h : Terminated bytes) (hother : Terminated other)
    (hbegins : bytes <+: other) : bytes = other := by
  induction h generalizing other with
  | last high =>
    cases hother with
    | last =>
      obtain ⟨rfl, -⟩ := List.cons_prefix_cons.mp hbegins
      rfl
    | more low =>
      obtain ⟨rfl, -⟩ := List.cons_prefix_cons.mp hbegins
      exact absurd high (not_le.mpr low)
  | more low ends ih =>
    cases hother with
    | last high =>
      obtain ⟨rfl, -⟩ := List.cons_prefix_cons.mp hbegins
      exact absurd high (not_le.mpr low)
    | more _ hrest =>
      obtain ⟨rfl, hbehind⟩ := List.cons_prefix_cons.mp hbegins
      rw [ih hrest hbehind]

/-! ## Numbers and their shortest strings -/

theorem lastDigit_cons (byte : UInt8) {rest : List UInt8} (h : rest ≠ []) :
    lastDigit (byte :: rest) = lastDigit rest := by
  obtain ⟨next, rest, rfl⟩ := List.exists_cons_of_ne_nil h
  rfl

/-- The last digit counts at its place, and all digits in front of it count less than one there. -/
theorem number_bounds {bytes : List UInt8} (h : bytes ≠ []) :
    lastDigit bytes * 128 ^ (bytes.length - 1) ≤ number bytes ∧
      number bytes < (lastDigit bytes + 1) * 128 ^ (bytes.length - 1) := by
  induction bytes with
  | nil => exact absurd rfl h
  | cons byte rest ih =>
    have hdigit : byte.toNat % 128 < 128 := Nat.mod_lt _ (by decide)
    by_cases hrest : rest = []
    · subst hrest
      simp [number, lastDigit]
    · obtain ⟨hleast, hmost⟩ := ih hrest
      have hpos := List.length_pos_of_ne_nil hrest
      have hpow : 128 ^ rest.length = 128 * 128 ^ (rest.length - 1) := by
        rw [← Nat.pow_succ', Nat.succ_eq_add_one, Nat.sub_add_cancel hpos]
      rw [lastDigit_cons byte hrest, number, List.length_cons, Nat.add_sub_cancel, hpow,
        Nat.mul_left_comm, Nat.mul_left_comm (lastDigit rest + 1)]
      omega

theorem chunks_injective {m n : Nat} (h : chunks m = chunks n) : m = n := by
  rw [← number_chunks m, h, number_chunks]

/-- No zero is written behind the last digit that counts. -/
theorem lastDigit_chunks (n : Nat) : (chunks n).length = 1 ∨ lastDigit (chunks n) ≠ 0 := by
  induction n using Nat.strongRecOn with
  | ind n ih =>
    rw [chunks]
    by_cases h : n < 128
    · rw [dif_pos h]
      exact .inl rfl
    · rw [dif_neg h, lastDigit_cons _ (chunks_ne_nil _)]
      refine .inr ((ih (n / 128) (by omega)).elim (fun hone hzero => ?_) id)
      have hbound := (number_bounds (chunks_ne_nil (n / 128))).2
      rw [number_chunks, hone, hzero] at hbound
      omega

/-- No more digits are written for a number than make room for it. -/
theorem length_chunks_le_of_lt {n digits : Nat} (hdigits : 0 < digits) (h : n < 128 ^ digits) :
    (chunks n).length ≤ digits := by
  rcases lastDigit_chunks n with hone | hcounts
  · omega
  · have hleast := (number_bounds (chunks_ne_nil n)).1
    rw [number_chunks] at hleast
    have hpow : 128 ^ ((chunks n).length - 1) < 128 ^ digits :=
      calc 128 ^ ((chunks n).length - 1)
          ≤ lastDigit (chunks n) * 128 ^ ((chunks n).length - 1) :=
            Nat.le_mul_of_pos_left _ (Nat.pos_of_ne_zero hcounts)
        _ ≤ n := hleast
        _ < 128 ^ digits := h
    have := (Nat.pow_lt_pow_iff_right (by decide)).mp hpow
    omega

/-- A low byte is its digit. -/
theorem eq_digit_of_low {byte : UInt8} (h : byte.toNat < 128) : UInt8.ofNat (byte.toNat % 128) = byte := by
  rw [Nat.mod_eq_of_lt h]
  exact UInt8.ofNat_toNat

/-- A high byte is its digit with the high bit set. -/
theorem eq_digit_of_high {byte : UInt8} (h : 128 ≤ byte.toNat) :
    UInt8.ofNat (byte.toNat % 128 + 128) = byte := by
  have hlt := byte.toNat_lt
  rw [show byte.toNat % 128 + 128 = byte.toNat by omega]
  exact UInt8.ofNat_toNat

/-- A terminated string that has one byte, or whose last digit counts, is what is written for its number. -/
theorem chunks_number {bytes : List UInt8} (h : Terminated bytes)
    (hlast : bytes.length = 1 ∨ lastDigit bytes ≠ 0) : chunks (number bytes) = bytes := by
  induction h with
  | @last byte high =>
    have hdigit : byte.toNat % 128 < 128 := Nat.mod_lt _ (by decide)
    rw [number, number, Nat.mul_zero, Nat.add_zero, chunks, dif_pos hdigit, eq_digit_of_high high]
  | @more byte rest low ends ih =>
    have hpos := List.length_pos_of_ne_nil ends.ne_nil
    have hcounts : lastDigit rest ≠ 0 := by
      rw [← lastDigit_cons byte ends.ne_nil]
      refine hlast.resolve_left ?_
      rw [List.length_cons]
      omega
    -- what is behind the first byte does not vanish, so one digit does not hold the number
    have hrest : 0 < number rest :=
      Nat.lt_of_lt_of_le (Nat.mul_pos (Nat.pos_of_ne_zero hcounts) (Nat.pow_pos (by decide)))
        (number_bounds ends.ne_nil).1
    have hdigit : byte.toNat % 128 < 128 := Nat.mod_lt _ (by decide)
    rw [number, chunks, dif_neg (by omega), Nat.add_mul_mod_self_left, Nat.mod_mod, eq_digit_of_low low,
      Nat.add_mul_div_left _ _ (by decide), Nat.div_eq_of_lt hdigit, Nat.zero_add, ih (.inr hcounts)]

/-- Any other string is longer than what is written for its number. -/
theorem length_chunks_number_lt {bytes : List UInt8} (h : bytes ≠ []) (hlength : bytes.length ≠ 1)
    (hlast : lastDigit bytes = 0) : (chunks (number bytes)).length < bytes.length := by
  have hpos := List.length_pos_of_ne_nil h
  have hbound := (number_bounds h).2
  rw [hlast, Nat.zero_add, Nat.one_mul] at hbound
  have hle := length_chunks_le_of_lt (by omega) hbound
  omega

/-! ## Spellings -/

/-- A byte string that may stand for a word: from one to ten bytes of which exactly the last is high, and a
tenth digit of at most one. -/
structure Spelling (bytes : List UInt8) : Prop where
  /-- There is a byte. -/
  ne_nil : bytes ≠ []
  /-- No word takes more than ten bytes. -/
  length_le : bytes.length ≤ maxEncodedSize
  /-- Exactly the last byte is high. -/
  high_iff : ∀ index (h : index < bytes.length), 128 ≤ bytes[index].toNat ↔ index + 1 = bytes.length
  /-- The tenth digit has one bit. -/
  top_le : bytes.length = maxEncodedSize → lastDigit bytes ≤ 1

theorem Spelling.terminated {bytes : List UInt8} (h : Spelling bytes) : Terminated bytes :=
  terminated_iff.mpr ⟨h.ne_nil, h.high_iff⟩

/-- The number of a spelling is a word. -/
theorem Spelling.number_lt {bytes : List UInt8} (h : Spelling bytes) : number bytes < 2 ^ 64 := by
  have hbound := (number_bounds h.ne_nil).2
  have hdigit : lastDigit bytes < 128 := Nat.mod_lt _ (by decide)
  have hlength := h.length_le
  by_cases hten : bytes.length = maxEncodedSize
  · have htop := h.top_le hten
    rw [hten] at hbound
    calc number bytes < (lastDigit bytes + 1) * 128 ^ 9 := hbound
      _ ≤ 2 * 128 ^ 9 := Nat.mul_le_mul_right _ (by omega)
      _ = 2 ^ 64 := by decide
  · have hshort : bytes.length - 1 ≤ 8 := by
      rw [maxEncodedSize] at hlength hten
      omega
    calc number bytes < (lastDigit bytes + 1) * 128 ^ (bytes.length - 1) := hbound
      _ ≤ 128 * 128 ^ 8 := Nat.mul_le_mul hdigit (Nat.pow_le_pow_right (by decide) hshort)
      _ ≤ 2 ^ 64 := by decide

/-- What is written for a word is a spelling. -/
theorem spelling_chunks (value : UInt64) : Spelling (chunks value.toNat) := by
  obtain ⟨hne, hhigh⟩ := terminated_iff.mp (terminated_chunks value.toNat)
  refine ⟨hne, ?_, hhigh, fun hten => ?_⟩
  · rw [← encodedSize_eq]
    exact encodedSize_le value
  · have hvalue := value.toNat_lt
    have hleast := (number_bounds hne).1
    rw [number_chunks, hten, maxEncodedSize] at hleast
    omega

/-- Reading a spelling gives the word of its number and the position behind it. -/
theorem Spelling.decode_eq {content : List UInt8} (h : Spelling content) {bytes : Array UInt8} {pos : Nat}
    (hholds : HoldsAt bytes pos content) :
    decode bytes pos = some (UInt64.ofNat (number content), pos + content.length) := by
  rw [decode, decodeFrom_of_terminated h.terminated hholds]
  simp

theorem Spelling.encode_eq {bytes : List UInt8} (h : Spelling bytes) (out : Array UInt8) :
    encode out (UInt64.ofNat (number bytes)) = out ++ chunks (number bytes) := by
  rw [Varint.encode_eq, UInt64.toNat_ofNat_of_lt' h.number_lt]

theorem append_bytes_inj {out : Array UInt8} {bytes other : List UInt8} :
    out ++ bytes = out ++ other ↔ bytes = other := by
  constructor
  · intro h
    have := congrArg Array.toList h
    rwa [Array.toList_appendList, Array.toList_appendList, List.append_cancel_left_eq] at this
  · rintro rfl
    rfl

/-- **Every word has one shortest spelling.**  A spelling is read to its end and stands for a word; the word
is written as that spelling again just in case the spelling has a single byte or does not end in a zero, and in
fewer bytes otherwise.  Everything that is written is a spelling.  What is written for a word does not begin
what is written for another one. -/
theorem spellings_canonical :
    (∀ bytes : List UInt8, Spelling bytes → ∃ value : UInt64,
      decode bytes.toArray 0 = some (value, bytes.length) ∧
      ∀ out : Array UInt8,
        (encode out value = out ++ bytes ↔ bytes.length = 1 ∨ lastDigit bytes ≠ 0) ∧
        (¬ (bytes.length = 1 ∨ lastDigit bytes ≠ 0) → (encode out value).size < out.size + bytes.length)) ∧
    (∀ value : UInt64, ∃ bytes : List UInt8, Spelling bytes ∧
      ∀ out : Array UInt8, encode out value = out ++ bytes) ∧
    ∀ value other : UInt64, value ≠ other → ¬ (encode #[] value).toList <+: (encode #[] other).toList := by
  refine ⟨fun bytes h => ⟨UInt64.ofNat (number bytes), ?_, fun out => ?_⟩, fun value => ?_, ?_⟩
  · have hholds : HoldsAt bytes.toArray 0 bytes := ⟨[], by simp⟩
    rw [h.decode_eq hholds, Nat.zero_add]
  · rw [h.encode_eq, append_bytes_inj, size_append_bytes]
    refine ⟨⟨fun heq => ?_, chunks_number h.terminated⟩, fun hnot => ?_⟩
    · rw [← heq]
      exact lastDigit_chunks _
    · obtain ⟨hlength, hlast⟩ := not_or.mp hnot
      have := length_chunks_number_lt h.ne_nil hlength (not_not.mp hlast)
      omega
  · exact ⟨chunks value.toNat, spelling_chunks value, fun out => encode_eq out value⟩
  · intro value other hne hbegins
    simp only [encode_eq, Array.toList_appendList, List.nil_append] at hbegins
    have heq := (terminated_chunks _).eq_of_begins (terminated_chunks _) hbegins
    exact hne (UInt64.toNat_inj.mp (chunks_injective heq))

/-- A zero behind the two digits of 300, and the greatest word, which has a tenth digit. -/
theorem spellings_of_two_words :
    Spelling [44, 2, 128] ∧ Spelling [127, 127, 127, 127, 127, 127, 127, 127, 127, 129] ∧
    (∃ value : UInt64, decode #[44, 2, 128] 0 = some (value, 3) ∧ (encode #[] value).size < 3) ∧
    (∃ value : UInt64, decode #[127, 127, 127, 127, 127, 127, 127, 127, 127, 129] 0 = some (value, 10) ∧
      encode #[] value = #[127, 127, 127, 127, 127, 127, 127, 127, 127, 129]) ∧
    (300 : UInt64) ≠ 18446744073709551615 ∧
    ¬ (encode #[] 300).toList <+: (encode #[] 18446744073709551615).toList := by
  have hzero : Spelling [44, 2, 128] := ⟨by decide, by decide, by decide, by decide⟩
  have hten : Spelling [127, 127, 127, 127, 127, 127, 127, 127, 127, 129] :=
    ⟨by decide, by decide, by decide, by decide⟩
  have hne : (300 : UInt64) ≠ 18446744073709551615 := by decide
  obtain ⟨hspellings, -, hseparate⟩ := spellings_canonical
  obtain ⟨short, hshort, hless⟩ := hspellings _ hzero
  obtain ⟨greatest, hgreatest, hagain⟩ := hspellings _ hten
  exact ⟨hzero, hten, ⟨short, hshort, by simpa using (hless #[]).2 (by decide)⟩,
    ⟨greatest, hgreatest, by simpa using (hagain #[]).1.mpr (by decide)⟩, hne, hseparate _ _ hne⟩

end PackedGraph.Varint
