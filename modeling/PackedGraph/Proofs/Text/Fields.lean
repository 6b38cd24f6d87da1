import Mathlib.Data.List.DropRight
import PackedGraph.Text.Fields

/-!
# How text falls into fields

Cutting at separators is splitting a list.  Of the fields nothing is lost where the text is extended by
separators, and where separators stand between two texts, the fields of the one come before those of the other.

Main statements: `pieces_eq_splitOnP`, `fields_append_gap_append` and `exists_trim`.
-/

namespace PackedGraph

variable {isSeparator : Char → Bool}

/-! ## Pieces and fields -/

theorem pieces_eq_splitOnP (text : List Char) : pieces isSeparator text = text.splitOnP isSeparator := by
  induction text with
  | nil => rfl
  | cons c text ih =>
    rw [List.splitOnP_cons_eq_if_modifyHead, ← ih]
    cases hpieces : pieces isSeparator text with
    | nil => exact absurd (ih.symm.trans hpieces) (List.splitOnP_ne_nil _ _)
    | cons first others =>
      unfold pieces at hpieces ⊢
      rw [List.foldr_cons, hpieces]
      rfl

/-- The fields are the pieces that are not empty. -/
theorem fields_eq (text : List Char) :
    fields isSeparator text = (text.splitOnP isSeparator).filter fun piece => !piece.isEmpty := by
  rw [fields, pieces_eq_splitOnP]

@[simp]
theorem fields_nil : fields isSeparator [] = [] := rfl

/-- A text without separators is one field. -/
theorem fields_of_free {word : List Char} (hne : word ≠ []) (h : ∀ c ∈ word, isSeparator c = false) :
    fields isSeparator word = [word] := by
  rw [fields_eq, List.splitOnP_eq_singleton h]
  simp [hne]

/-- A text that does not begin with a separator begins with its first field. -/
theorem exists_fields_cons {c : Char} (hc : isSeparator c = false) (text : List Char) :
    ∃ word others, fields isSeparator (c :: text) = (c :: word) :: others := by
  rw [fields_eq, List.splitOnP_cons_eq_if_modifyHead, if_neg (by simp [hc])]
  obtain ⟨word, others, hpieces⟩ := List.exists_cons_of_ne_nil (List.splitOnP_ne_nil isSeparator text)
  rw [hpieces]
  exact ⟨word, _, rfl⟩

/-- A separator ends the fields in front of it. -/
theorem fields_append_cons (left right : List Char) {c : Char} (hc : isSeparator c = true) :
    fields isSeparator (left ++ c :: right) = fields isSeparator left ++ fields isSeparator right := by
  rw [fields_eq, List.splitOnP_append_cons left right hc, List.filter_append, ← fields_eq, ← fields_eq]

/-- Separators in front of a text do not count. -/
theorem fields_gap_append {gap : List Char} (hgap : ∀ c ∈ gap, isSeparator c = true) (text : List Char) :
    fields isSeparator (gap ++ text) = fields isSeparator text := by
  induction gap with
  | nil => rfl
  | cons c gap ih =>
    obtain ⟨hc, hgap⟩ := List.forall_mem_cons.mp hgap
    rw [← ih hgap]
    exact fields_append_cons [] (gap ++ text) hc

/-- Separators between two texts keep their fields apart. -/
theorem fields_append_gap_append {gap : List Char} (hne : gap ≠ []) (hgap : ∀ c ∈ gap, isSeparator c = true)
    (left right : List Char) :
    fields isSeparator (left ++ gap ++ right) = fields isSeparator left ++ fields isSeparator right := by
  obtain ⟨c, gap, rfl⟩ := List.exists_cons_of_ne_nil hne
  obtain ⟨hc, hgap⟩ := List.forall_mem_cons.mp hgap
  rw [List.append_assoc, List.cons_append, fields_append_cons left (gap ++ right) hc,
    fields_gap_append hgap]

/-- Separators behind a text do not count. -/
theorem fields_append_gap {gap : List Char} (hgap : ∀ c ∈ gap, isSeparator c = true) (text : List Char) :
    fields isSeparator (text ++ gap) = fields isSeparator text := by
  cases gap with
  | nil => rw [List.append_nil]
  | cons c gap =>
    have happend := fields_append_gap_append (List.cons_ne_nil c gap) hgap text []
    rwa [List.append_nil, fields_nil, List.append_nil] at happend

/-! ## Trimming -/

/-- What trimming takes away is white space. -/
theorem exists_trim (text : List Char) :
    ∃ before after, (∀ c ∈ before, isBlank c = true) ∧ (∀ c ∈ after, isBlank c = true) ∧
      text = before ++ trim text ++ after := by
  refine ⟨text.takeWhile isBlank, (text.dropWhile isBlank).rtakeWhile isBlank,
    fun c hc => List.mem_takeWhile_imp hc, fun c hc => List.mem_rtakeWhile_imp hc, ?_⟩
  rw [List.append_assoc]
  change text = _ ++ (List.rdropWhile isBlank _ ++ _)
  rw [List.rdropWhile_append_rtakeWhile, List.takeWhile_append_dropWhile]

/-- Of white space nothing is left. -/
theorem trim_of_blank {text : List Char} (h : ∀ c ∈ text, isBlank c = true) : trim text = [] := by
  rw [trim, List.dropWhile_eq_nil_iff.mpr h]
  rfl

/-- The first character that is no white space is the first that is left. -/
theorem exists_trim_cons {before : List Char} (hbefore : ∀ c ∈ before, isBlank c = true) {c : Char}
    (hc : isBlank c = false) (rest : List Char) :
    ∃ left, trim (before ++ c :: rest) = c :: left := by
  have hfront : (before ++ c :: rest).dropWhile isBlank = c :: rest := by
    rw [List.dropWhile_append_of_pos hbefore, List.dropWhile_cons_of_neg (by simp [hc])]
  refine ⟨(rest.reverse.dropWhile isBlank).reverse, ?_⟩
  rw [trim, hfront, List.reverse_cons, List.dropWhile_append]
  split
  case isTrue hempty => simp [List.isEmpty_iff.mp hempty, hc]
  case isFalse => rw [List.reverse_append]; rfl

end PackedGraph
