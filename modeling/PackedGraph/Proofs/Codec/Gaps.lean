import Mathlib.Data.List.Basic
import PackedGraph.Codec.Gaps
import PackedGraph.Proofs.Codec.Varint

/-!
# Ascending words are read back from their gaps

The bytes of a run are the chunks of its gaps (`wordBytes`, `gapList`).  A run that ascends is read
back by adding the gaps up, all at once or in windows, each window counting from the last word of the
window before.

Main statements: `decodeGaps_of_holdsAt` reads a piece of a run, `wordBytes_gapList_append` cuts a run
into windows, `encodedSizeOf_eq` gives the length of the bytes that `encodeValues` appends.
-/

namespace PackedGraph.Varint

/-! ## Bytes and gaps of a sequence -/

/-- The bytes of a sequence: the chunks of its words, places without a word being passed over. -/
def wordBytes (values : List UInt64) : List UInt8 :=
  (values.filter (· ≠ absent)).flatMap fun value => chunks value.toNat

/-- The gaps of a sequence, the first one counted from `previous`. -/
def gapList (previous : UInt64) : List UInt64 → List UInt64
  | [] => []
  | value :: rest =>
    if value = absent then value :: gapList previous rest
    else (value - previous) :: gapList value rest

/-- The words of a sequence. -/
def kept (values : List UInt64) : List UInt64 := values.filter (· ≠ absent)

theorem keptCount_eq_length (values : List UInt64) : keptCount values = (kept values).length := by
  rw [keptCount, List.countP_eq_length_filter, kept]
  congr 1
  exact List.filter_congr fun value _ => by by_cases h : value = absent <;> simp [h]

@[simp] theorem wordBytes_nil : wordBytes [] = [] := rfl

theorem wordBytes_cons (value : UInt64) (rest : List UInt64) :
    wordBytes (value :: rest) =
      if value = absent then wordBytes rest else chunks value.toNat ++ wordBytes rest := by
  by_cases h : value = absent <;> simp [wordBytes, h]

/-- Encoding appends the bytes of the sequence. -/
theorem encodeValues_eq (out : Array UInt8) (values : List UInt64) :
    encodeValues out values = out ++ wordBytes values := by
  unfold encodeValues
  induction values generalizing out with
  | nil => simp
  | cons value rest ih =>
    rw [List.foldl_cons, ih, wordBytes_cons]
    by_cases h : value = absent
    · rw [if_pos h, if_pos h]
    · rw [if_neg h, if_neg h, encode_eq]
      apply Array.ext'
      simp

/-- The size that is announced for a sequence is the length of its bytes. -/
theorem encodedSizeOf_eq (values : List UInt64) :
    encodedSizeOf values = (wordBytes values).length := by
  have hfold : ∀ total, values.foldl
      (fun total value => if value = absent then total else total + encodedSize value) total
        = total + (wordBytes values).length := by
    induction values with
    | nil => simp
    | cons value rest ih =>
      intro total
      rw [List.foldl_cons, ih, wordBytes_cons]
      by_cases h : value = absent
      · rw [if_pos h, if_pos h]
      · rw [if_neg h, if_neg h, encodedSize_eq, List.length_append, Nat.add_assoc]
  rw [encodedSizeOf, hfold 0, Nat.zero_add]

theorem gapsFrom_eq (found : Array UInt64) (previous : UInt64) (values : List UInt64) :
    gapsFrom found previous values = found ++ gapList previous values := by
  induction values generalizing found previous with
  | nil => simp [gapsFrom, gapList]
  | cons value rest ih =>
    rw [gapsFrom, gapList]
    by_cases h : value = absent
    · rw [if_pos h, if_pos h, ih]
      apply Array.ext'
      simp
    · rw [if_neg h, if_neg h, ih]
      apply Array.ext'
      simp

theorem gaps_eq (values : List UInt64) : gaps values = gapList 0 values := by
  simp [gaps, gapsFrom_eq]

/-! ## Ascending words -/

/-- Words that ascend, none of them below a bound and none of them absent. -/
structure AscendsFrom (low : UInt64) (values : List UInt64) : Prop where
  /-- Every word is at least the one before it, and the first at least the bound. -/
  sorted : (low :: values).Pairwise (· ≤ ·)
  /-- Every place holds a word. -/
  present : absent ∉ values

theorem AscendsFrom.tail {low value : UInt64} {rest : List UInt64}
    (h : AscendsFrom low (value :: rest)) : AscendsFrom value rest :=
  ⟨(List.pairwise_cons.mp h.sorted).2, fun hmem => h.present (List.mem_cons_of_mem _ hmem)⟩

theorem AscendsFrom.low_le {low value : UInt64} {rest : List UInt64}
    (h : AscendsFrom low (value :: rest)) : low ≤ value :=
  (List.pairwise_cons.mp h.sorted).1 value List.mem_cons_self

theorem AscendsFrom.ne_absent {low value : UInt64} {rest : List UInt64}
    (h : AscendsFrom low (value :: rest)) : value ≠ absent :=
  fun heq => h.present (heq ▸ List.mem_cons_self)

/-- A piece of an ascending run ascends from the last word in front of it. -/
theorem AscendsFrom.append {low : UInt64} {first second : List UInt64}
    (h : AscendsFrom low (first ++ second)) :
    AscendsFrom low first ∧ AscendsFrom (first.getLastD low) second := by
  induction first generalizing low with
  | nil => exact ⟨⟨List.pairwise_singleton _ _, List.not_mem_nil⟩, h⟩
  | cons value rest ih =>
    obtain ⟨hrest, hsecond⟩ := ih h.tail
    refine ⟨⟨?_, ?_⟩, by rwa [List.getLastD_cons]⟩
    · refine h.sorted.sublist ?_
      exact List.Sublist.cons_cons low (List.sublist_append_left _ _)
    · exact fun hmem => h.present (List.mem_append_left _ hmem)

/-- A gap of present words is present. -/
theorem sub_ne_absent {low value : UInt64} (hle : low ≤ value) (hne : value ≠ absent) :
    value - low ≠ absent := by
  intro heq
  have hsub : (value - low).toNat = value.toNat - low.toNat := UInt64.toNat_sub_of_le _ _ hle
  have hval : value.toNat < 18446744073709551615 := by
    have hbound := value.toNat_lt
    have : value.toNat ≠ absent.toNat := fun h => hne (UInt64.toNat_inj.mp h)
    rw [show absent.toNat = 18446744073709551615 from rfl] at this
    omega
  rw [heq, show absent.toNat = 18446744073709551615 from rfl] at hsub
  omega

theorem wordBytes_gapList_cons {low value : UInt64} {rest : List UInt64}
    (h : AscendsFrom low (value :: rest)) :
    wordBytes (gapList low (value :: rest)) =
      chunks (value - low).toNat ++ wordBytes (gapList value rest) := by
  rw [gapList, if_neg h.ne_absent, wordBytes_cons, if_neg (sub_ne_absent h.low_le h.ne_absent)]

/-- The bytes of a run are those of its first piece and those of its second, which counts from the
last word of the first. -/
theorem wordBytes_gapList_append {low : UInt64} {first second : List UInt64}
    (h : AscendsFrom low (first ++ second)) :
    wordBytes (gapList low (first ++ second)) =
      wordBytes (gapList low first) ++ wordBytes (gapList (first.getLastD low) second) := by
  induction first generalizing low with
  | nil => simp [gapList]
  | cons value rest ih =>
    rw [wordBytes_gapList_cons h.append.1]
    rw [List.cons_append] at h ⊢
    rw [wordBytes_gapList_cons h, ih h.tail, List.append_assoc, List.getLastD_cons]

/-- A run that is not empty has bytes. -/
theorem wordBytes_gapList_ne_nil {low : UInt64} {values : List UInt64}
    (h : AscendsFrom low values) (hne : values ≠ []) : wordBytes (gapList low values) ≠ [] := by
  obtain ⟨value, rest, rfl⟩ := List.exists_cons_of_ne_nil hne
  rw [wordBytes_gapList_cons h]
  exact fun hnil => chunks_ne_nil _ (List.append_eq_nil_iff.mp hnil).1

/-- All places of an ascending run are kept. -/
theorem AscendsFrom.keptCount_eq {low : UInt64} {values : List UInt64}
    (h : AscendsFrom low values) : keptCount values = values.length := by
  rw [keptCount, List.countP_eq_length]
  intro value hmem
  have : value ≠ absent := fun heq => h.present (heq ▸ hmem)
  simpa using this

/-! ## Places without a word -/

/-- Targets whose words ascend; at any place there may be no word. -/
def Ascends (targets : List UInt64) : Prop := (kept targets).Pairwise (· ≤ ·)

instance (targets : List UInt64) : Decidable (Ascends targets) :=
  inferInstanceAs (Decidable ((kept targets).Pairwise (· ≤ ·)))

theorem AscendsFrom.ascends {low : UInt64} {targets : List UInt64} (h : AscendsFrom low targets) :
    Ascends targets :=
  (List.pairwise_cons.mp h.sorted).2.filter _

/-- Words that ascend do so from the least one on. -/
theorem Ascends.from_zero {targets : List UInt64} (h : Ascends targets) : AscendsFrom 0 (kept targets) := by
  refine ⟨List.pairwise_cons.mpr ⟨fun _ _ => UInt64.le_iff_toNat_le.mpr (Nat.zero_le _), h⟩, ?_⟩
  simp [kept]

theorem kept_cons (target : UInt64) (rest : List UInt64) :
    kept (target :: rest) = if target = absent then kept rest else target :: kept rest := by
  by_cases h : target = absent <;> simp [kept, h]

/-- Places without a word take no bytes. -/
theorem wordBytes_gapList_kept (low : UInt64) (targets : List UInt64) :
    wordBytes (gapList low targets) = wordBytes (gapList low (kept targets)) := by
  induction targets generalizing low with
  | nil => rfl
  | cons target rest ih =>
    rw [kept_cons, gapList]
    by_cases h : target = absent
    · rw [if_pos h, if_pos h, wordBytes_cons, if_pos h, ih]
    · rw [if_neg h, if_neg h, gapList, if_neg h, wordBytes_cons, wordBytes_cons, ih]

/-! ## Reading back -/

theorem decodeGapsFrom_of_holdsAt {bytes : Array UInt8} (values : List UInt64) :
    ∀ {base : UInt64} {pos : Nat} (found : Array UInt64), AscendsFrom base values →
      HoldsAt bytes pos (wordBytes (gapList base values)) →
      decodeGapsFrom bytes found base values.length pos =
        some (found ++ values, pos + (wordBytes (gapList base values)).length) := by
  induction values with
  | nil =>
    intro base pos found _ _
    simp [decodeGapsFrom, gapList]
  | cons value rest ih =>
    intro base pos found hasc hbytes
    rw [wordBytes_gapList_cons hasc] at hbytes ⊢
    obtain ⟨hfirst, hrest⟩ := holdsAt_append hbytes
    have hsum : base + (value - base) = value := by
      rw [UInt64.add_comm, UInt64.sub_add_cancel]
    rw [List.length_cons, decodeGapsFrom, decode_of_holdsAt hfirst]
    simp only [hsum]
    rw [ih (found.push value) hasc.tail hrest, List.length_append, Nat.add_assoc]
    simp

/-- An ascending run is read back from wherever its bytes stand. -/
theorem decodeGaps_of_holdsAt {bytes : Array UInt8} {base : UInt64} {pos : Nat}
    {values : List UInt64} (hasc : AscendsFrom base values)
    (hbytes : HoldsAt bytes pos (wordBytes (gapList base values))) :
    decodeGaps bytes pos base values.length =
      some (values, pos + (wordBytes (gapList base values)).length) := by
  rw [decodeGaps, decodeGapsFrom_of_holdsAt values #[] hasc hbytes]
  simp

end PackedGraph.Varint
