import Mathlib.Algebra.GroupWithZero.Nat
import PackedGraph.Proofs.Codec.Sequences

/-!
# Gaps are read in windows

Whatever some bytes are, decoding gaps all at once or in windows, each counting from the last word of the
window before, gives the same words and ends at the same position.  A sequence whose words ascend is found
again from its gaps wherever places without a word stand in between: they stay where they are, no gap is
taken for one of them, and they take no bytes.

Main statements: `decodeGaps_add` joins two windows and `decodeWindows_eq` any number of them;
`gaps_restore_words` puts the passage through the bytes together.
-/

namespace PackedGraph.Varint

/-! ## Windows -/

/-- Windows with so many words each that are decoded one after the other, each based on the last word of the
window before, or on the same base where that has none; and the position behind them. -/
def decodeWindows (bytes : Array UInt8) : Nat → UInt64 → List Nat → Option (List (List UInt64) × Nat)
  | pos, _, [] => some ([], pos)
  | pos, base, count :: counts =>
    (decodeGaps bytes pos base count).bind fun (window, next) =>
      (decodeWindows bytes next (window.getLastD base) counts).map fun (windows, last) =>
        (window :: windows, last)

/-- What has been found before is put in front. -/
theorem decodeGapsFrom_eq (bytes : Array UInt8) (found : Array UInt64) (base : UInt64) (count pos : Nat) :
    decodeGapsFrom bytes found base count pos =
      (decodeGaps bytes pos base count).map fun (words, next) => (found ++ words, next) := by
  induction count generalizing found base pos with
  | zero => simp [decodeGaps, decodeGapsFrom]
  | succ count ih =>
    rw [decodeGaps, decodeGapsFrom, decodeGapsFrom]
    cases decode bytes pos with
    | none => rfl
    | some word =>
      simp only
      rw [ih, ih (#[].push _), Option.map_map, Option.map_map]
      congr 1
      funext words
      simp

/-- One word, and the others from it on. -/
theorem decodeGaps_succ (bytes : Array UInt8) (pos : Nat) (base : UInt64) (count : Nat) :
    decodeGaps bytes pos base (count + 1) =
      (decode bytes pos).bind fun (gap, next) =>
        (decodeGaps bytes next (base + gap) count).map fun (words, last) => ((base + gap) :: words, last) := by
  rw [decodeGaps, decodeGapsFrom]
  cases decode bytes pos with
  | none => rfl
  | some word =>
    simp only [Option.bind_some]
    rw [decodeGapsFrom_eq, Option.map_map]
    congr 1
    funext words
    simp

/-- Of two windows the second counts from the last word of the first. -/
theorem decodeGaps_add (bytes : Array UInt8) (pos : Nat) (base : UInt64) (first second : Nat) :
    decodeGaps bytes pos base (first + second) =
      (decodeGaps bytes pos base first).bind fun (words, next) =>
        (decodeGaps bytes next (words.getLastD base) second).map fun (more, last) => (words ++ more, last) := by
  induction first generalizing pos base with
  | zero => simp [decodeGaps, decodeGapsFrom, Function.comp_def]
  | succ first ih =>
    rw [Nat.succ_add, decodeGaps_succ, decodeGaps_succ]
    cases decode bytes pos with
    | none => rfl
    | some word =>
      simp only [Option.bind_some]
      rw [ih, Option.map_bind, Option.bind_map]
      congr 1
      funext words
      simp only [Function.comp, Option.map_map, List.getLastD_cons, List.cons_append]
      rfl

/-- Windows are what is decoded all at once, cut up. -/
theorem decodeWindows_eq (bytes : Array UInt8) (pos : Nat) (base : UInt64) (counts : List Nat) :
    (decodeWindows bytes pos base counts).map (fun (windows, last) => (windows.flatten, last)) =
      decodeGaps bytes pos base counts.sum := by
  induction counts generalizing pos base with
  | nil => simp [decodeWindows, decodeGaps, decodeGapsFrom]
  | cons count counts ih =>
    rw [decodeWindows, List.sum_cons, decodeGaps_add, Option.map_bind]
    congr 1
    funext words
    simp only [Function.comp, Option.map_map, ← ih]
    rfl

theorem length_of_decodeGaps {bytes : Array UInt8} {pos : Nat} {base : UInt64} {count : Nat}
    {words : List UInt64} {next : Nat} (h : decodeGaps bytes pos base count = some (words, next)) :
    words.length = count := by
  induction count generalizing pos base words next with
  | zero =>
    obtain ⟨rfl, -⟩ : [] = words ∧ pos = next := by simpa [decodeGaps, decodeGapsFrom] using h
    rfl
  | succ count ih =>
    rw [decodeGaps_succ] at h
    obtain ⟨word, -, hrest⟩ := Option.bind_eq_some_iff.mp h
    obtain ⟨⟨rest, last⟩, hdecoded, heq⟩ := Option.map_eq_some_iff.mp hrest
    obtain ⟨rfl, -⟩ := Prod.mk.inj heq
    rw [List.length_cons, ih hdecoded]

/-- Every window has as many words as were asked for. -/
theorem lengths_of_decodeWindows {bytes : Array UInt8} {pos : Nat} {base : UInt64} {counts : List Nat}
    {windows : List (List UInt64)} {last : Nat} (h : decodeWindows bytes pos base counts = some (windows, last)) :
    windows.map List.length = counts := by
  induction counts generalizing pos base windows last with
  | nil =>
    obtain ⟨rfl, -⟩ : [] = windows ∧ pos = last := by simpa [decodeWindows] using h
    rfl
  | cons count counts ih =>
    obtain ⟨⟨window, next⟩, hwindow, hrest⟩ := Option.bind_eq_some_iff.mp h
    obtain ⟨⟨others, stop⟩, hothers, heq⟩ := Option.map_eq_some_iff.mp hrest
    obtain ⟨rfl, -⟩ := Prod.mk.inj heq
    rw [List.map_cons, length_of_decodeGaps hwindow, ih hothers]

/-- Where words can be decoded all at once they can be decoded in any windows. -/
theorem decodeWindows_of_decodeGaps {bytes : Array UInt8} {pos : Nat} {base : UInt64} {counts : List Nat}
    {words : List UInt64} {last : Nat} (h : decodeGaps bytes pos base counts.sum = some (words, last)) :
    ∃ windows, decodeWindows bytes pos base counts = some (windows, last) ∧
      windows.map List.length = counts ∧ windows.flatten = words := by
  rw [← decodeWindows_eq] at h
  obtain ⟨⟨windows, stop⟩, hwindows, heq⟩ := Option.map_eq_some_iff.mp h
  obtain ⟨rfl, rfl⟩ := Prod.mk.inj heq
  exact ⟨windows, hwindows, lengths_of_decodeWindows hwindows, rfl⟩

/-! ## Places without a word among the gaps -/

theorem length_gapList (previous : UInt64) (values : List UInt64) :
    (gapList previous values).length = values.length := by
  induction values generalizing previous with
  | nil => rfl
  | cons value rest ih =>
    rw [gapList]
    split <;> rw [List.length_cons, ih, List.length_cons]

/-- Places without a word stay where they are, and no gap looks like one. -/
theorem gapList_eq_absent_iff {low : UInt64} {values : List UInt64} (h : AscendsFrom low (kept values)) (index : Nat) :
    (gapList low values)[index]? = some absent ↔ values[index]? = some absent := by
  induction values generalizing low index with
  | nil => rfl
  | cons value rest ih =>
    rw [kept_cons] at h
    rw [gapList]
    by_cases hvalue : value = absent
    · rw [if_pos hvalue] at h ⊢
      cases index with
      | zero => rfl
      | succ index => exact ih h index
    · rw [if_neg hvalue] at h ⊢
      cases index with
      | zero =>
        rw [List.getElem?_cons_zero, List.getElem?_cons_zero, Option.some_inj, Option.some_inj]
        exact iff_of_false (sub_ne_absent h.low_le hvalue) hvalue
      | succ index => exact ih h.tail index

/-! ## There and back -/

/-- **A sequence is restored from its gaps around the places without a word.**  These places are the same
among the gaps, and the others are as many as is said.  The gaps are written behind whatever was there, in as
many bytes as is announced; and whatever is written behind them, decoding that many words gives the words
of the sequence and the position behind the bytes, at once or in any windows. -/
theorem gaps_restore_words {values : List UInt64} (h : Ascends values) :
    (gaps values).length = values.length ∧
    (∀ index : Nat, (gaps values)[index]? = some absent ↔ values[index]? = some absent) ∧
    keptCount values = (values.filter (· ≠ absent)).length ∧
    ∃ bytes : List UInt8, bytes.length = encodedSizeOf (gaps values) ∧
      ∀ before : Array UInt8,
        writeValues before (gaps values) = (encodedSizeOf (gaps values), before ++ bytes) ∧
        ∀ behind : List UInt8,
          decodeGaps (before ++ bytes ++ behind) before.size 0 (keptCount values) =
            some (values.filter (· ≠ absent), before.size + encodedSizeOf (gaps values)) ∧
          ∀ counts : List Nat, counts.sum = keptCount values → ∃ windows : List (List UInt64),
            decodeWindows (before ++ bytes ++ behind) before.size 0 counts =
              some (windows, before.size + encodedSizeOf (gaps values)) ∧
            windows.map List.length = counts ∧ windows.flatten = values.filter (· ≠ absent) := by
  refine ⟨?_, fun index => ?_, keptCount_eq_length values, wordBytes (gaps values),
    (encodedSizeOf_eq _).symm, fun before => ⟨writeValues_eq before _, fun behind => ?_⟩⟩
  · rw [gaps_eq, length_gapList]
  · rw [gaps_eq]
    exact gapList_eq_absent_iff h.from_zero index
  · have hholds := holdsAt_between before (wordBytes (gaps values)) behind
    rw [gaps_eq, wordBytes_gapList_kept] at hholds
    have hdecoded := decodeGaps_of_holdsAt h.from_zero hholds
    rw [← wordBytes_gapList_kept, ← gaps_eq, ← encodedSizeOf_eq, ← keptCount_eq_length] at hdecoded
    refine ⟨hdecoded, fun counts hcounts => ?_⟩
    exact decodeWindows_of_decodeGaps (hcounts ▸ hdecoded)

/-- Words that repeat and lie far apart, with places without a word at both ends and in between, decoded in
windows of two, none and two words. -/
theorem gaps_restore_repeated_words :
    Ascends [absent, 3, absent, 3, 18446744073709551614, 18446744073709551614, absent] ∧
    [2, 0, 2].sum = keptCount [absent, 3, absent, 3, 18446744073709551614, 18446744073709551614, absent] ∧
    ∃ bytes : List UInt8, ∃ windows : List (List UInt64),
      decodeWindows ((#[9] : Array UInt8) ++ bytes ++ ([1] : List UInt8)) 1 0 [2, 0, 2] =
        some (windows, 1 + bytes.length) ∧
      windows.flatten = [3, 3, 18446744073709551614, 18446744073709551614] := by
  have hascends : Ascends [absent, 3, absent, 3, 18446744073709551614, 18446744073709551614, absent] := by decide
  have hcount : [2, 0, 2].sum =
      keptCount [absent, 3, absent, 3, 18446744073709551614, 18446744073709551614, absent] := by decide
  obtain ⟨-, -, -, bytes, hlength, hbytes⟩ := gaps_restore_words hascends
  obtain ⟨-, hread⟩ := hbytes #[9]
  obtain ⟨-, hwindows⟩ := hread [1]
  obtain ⟨windows, hdecoded, -, hwords⟩ := hwindows [2, 0, 2] hcount
  rw [← hlength] at hdecoded
  exact ⟨hascends, hcount, bytes, windows, hdecoded, hwords⟩

end PackedGraph.Varint
