import PackedGraph.EdgeList.Reading
import PackedGraph.Proofs.Numeric.Numerals
import PackedGraph.Proofs.Text.Fields
import PackedGraph.Proofs.Workers.Pool

/-!
# Reading an edge list is the inverse of writing it

A record is written on a line as two decimal ids and perhaps a weight, with separators between them and, at will,
around them.  Between such lines there may stand blank lines and comments.  However a list of records is written,
these records are read; and where a line is nothing of the kind, nothing is read and such a line is named.

Main definitions: `EdgeRecord.Spells` says which fields are a record, `EdgeRecord.WrittenAs` how a record may be
written and `EdgeList.WrittenAs` how a list of them may.

Main statement: `EdgeList.read_of_written`.
-/

namespace PackedGraph

/-! ## Characters -/

theorem isFieldSeparator_of_isBlank {c : Char} (h : isBlank c = true) : isFieldSeparator c = true := by
  rw [isFieldSeparator, h, Bool.true_or]

theorem toNat_of_isFieldSeparator {c : Char} (h : isFieldSeparator c = true) :
    c.toNat ≤ 32 ∨ c.toNat = 44 ∨ 133 ≤ c.toNat := by
  have hwide : ∀ n ∈ wideBlanks, 133 ≤ n := by decide
  simp only [isFieldSeparator, isBlank, Bool.or_eq_true, Bool.and_eq_true, beq_iff_eq, decide_eq_true_iff,
    List.contains_iff_mem] at h
  rcases h with ((rfl | hcontrol) | hmem) | rfl
  · exact .inl (by decide)
  · exact .inl (by omega)
  · exact .inr (.inr (hwide _ hmem))
  · exact .inr (.inl rfl)

/-- In a numeral there is no separator. -/
theorem IsNumeralChar.isFieldSeparator_eq {c : Char} (h : IsNumeralChar c) : isFieldSeparator c = false := by
  refine Bool.eq_false_iff.mpr fun hseparator => ?_
  obtain ⟨hlow, hhigh, hcomma⟩ := h
  have := toNat_of_isFieldSeparator hseparator
  omega

/-- Separators that stay on the line. -/
def IsGap (gap : List Char) : Prop := ∀ c ∈ gap, isFieldSeparator c = true ∧ c ≠ '\n'

instance (gap : List Char) : Decidable (IsGap gap) :=
  List.decidableBAll _ gap

theorem IsGap.separators {gap : List Char} (h : IsGap gap) : ∀ c ∈ gap, isFieldSeparator c = true :=
  fun c hc => (h c hc).1

theorem IsGap.not_mem {gap : List Char} (h : IsGap gap) : '\n' ∉ gap :=
  fun hmem => (h '\n' hmem).2 rfl

namespace EdgeRecord

/-! ## The fields of a record -/

/-- The fields that are a record: two numerals of its ids and, if it has a weight, a numeral of that. -/
inductive Spells : List (List Char) → EdgeRecord → Prop
  /-- A record without weight has two fields. -/
  | unweighted {source target : List Char} {first last : UInt64} (hsource : IsNumeralOf source first.toNat)
      (htarget : IsNumeralOf target last.toNat) : Spells [source, target] ⟨first, last, none⟩
  /-- A record with a weight has three. -/
  | weighted {source target weight : List Char} {first last : UInt64} {value : Binary64}
      (hsource : IsNumeralOf source first.toNat) (htarget : IsNumeralOf target last.toNat)
      (hweight : parseDouble? (String.ofList weight) = some value) :
      Spells [source, target, weight] ⟨first, last, some value.toFloat⟩

/-- What says which line is at fault, outermost. -/
def Names (number : Nat) (failure : Failure) : Prop :=
  ∃ said, failure.chain.head? = some ("line " ++ toString number ++ ": " ++ said)

theorem readId_eq_ok_iff {number : Nat} {role : String} {field : List Char} {id : UInt64} :
    readId number role field = .ok id ↔ IsNumeralOf field id.toNat := by
  rw [← parseWord_eq_ok_iff, readId]
  cases parseWord (String.ofList field) <;> simp

theorem readWeight_eq_ok_iff {number : Nat} {field : List Char} {weight : Float} :
    readWeight number field = .ok weight ↔
      ∃ value, parseDouble? (String.ofList field) = some value ∧ value.toFloat = weight := by
  rw [readWeight]
  cases parseDouble? (String.ofList field) <;> simp

/-- The records of fields are those that the fields spell. -/
theorem ofFields_eq_ok_iff {number : Nat} {fields : List (List Char)} {record : EdgeRecord} :
    ofFields number fields = .ok record ↔ Spells fields record := by
  constructor
  · intro h
    unfold ofFields at h
    split at h
    case h_1 source target =>
      obtain ⟨first, hsource, h⟩ := ok_of_bind h
      obtain ⟨last, htarget, h⟩ := ok_of_bind h
      obtain rfl := Except.ok.inj h
      exact .unweighted (readId_eq_ok_iff.mp hsource) (readId_eq_ok_iff.mp htarget)
    case h_2 source target weight =>
      obtain ⟨first, hsource, h⟩ := ok_of_bind h
      obtain ⟨last, htarget, h⟩ := ok_of_bind h
      obtain ⟨_, hweight, h⟩ := ok_of_bind h
      obtain rfl := Except.ok.inj h
      obtain ⟨value, hvalue, rfl⟩ := readWeight_eq_ok_iff.mp hweight
      exact .weighted (readId_eq_ok_iff.mp hsource) (readId_eq_ok_iff.mp htarget) hvalue
    case h_3 => exact absurd h (by simp)
  · rintro (⟨hsource, htarget⟩ | ⟨hsource, htarget, hweight⟩)
    · rw [ofFields, readId_eq_ok_iff.mpr hsource, readId_eq_ok_iff.mpr htarget]
      rfl
    · rw [ofFields, readId_eq_ok_iff.mpr hsource, readId_eq_ok_iff.mpr htarget,
        readWeight_eq_ok_iff.mpr ⟨_, hweight, rfl⟩]
      rfl

theorem readId_eq_error {number : Nat} {role : String} {field : List Char} {failure : Failure}
    (h : readId number role field = .error failure) : Names number failure := by
  rw [readId] at h
  split at h
  case h_1 => exact absurd h (by simp)
  case h_2 =>
    obtain rfl := Except.error.inj h
    exact ⟨_, rfl⟩

theorem readWeight_eq_error {number : Nat} {field : List Char} {failure : Failure}
    (h : readWeight number field = .error failure) : Names number failure := by
  rw [readWeight] at h
  split at h
  case h_1 => exact absurd h (by simp)
  case h_2 =>
    obtain rfl := Except.error.inj h
    exact ⟨_, rfl⟩

/-- Fields that are no record are refused with the number of the line. -/
theorem ofFields_eq_error {number : Nat} {fields : List (List Char)} {failure : Failure}
    (h : ofFields number fields = .error failure) : Names number failure := by
  unfold ofFields at h
  split at h
  case h_1 source target =>
    rcases error_of_bind h with hsource | ⟨first, -, h⟩
    · exact readId_eq_error hsource
    rcases error_of_bind h with htarget | ⟨last, -, h⟩
    · exact readId_eq_error htarget
    exact absurd h (by simp [pure, Except.pure])
  case h_2 source target weight =>
    rcases error_of_bind h with hsource | ⟨first, -, h⟩
    · exact readId_eq_error hsource
    rcases error_of_bind h with htarget | ⟨last, -, h⟩
    · exact readId_eq_error htarget
    rcases error_of_bind h with hweight | ⟨value, -, h⟩
    · exact readWeight_eq_error hweight
    exact absurd h (by simp [pure, Except.pure])
  case h_3 =>
    obtain rfl := Except.error.inj h
    exact ⟨_, rfl⟩

/-! ## Lines -/

/-- A line that is blank, or a comment: its first character other than white space is a `#` or a `%`. -/
def Silent (line : List Char) : Prop :=
  (∀ c ∈ line, isBlank c = true) ∨
    ∃ before mark rest, line = before ++ mark :: rest ∧ (∀ c ∈ before, isBlank c = true) ∧
      (mark = '#' ∨ mark = '%')

/-- Lines are recognised as such once they are trimmed. -/
theorem isComment_trim_iff {line : List Char} : isComment (trim line) = true ↔ Silent line := by
  constructor
  · intro h
    obtain ⟨before, after, hbefore, hafter, hline⟩ := exists_trim line
    cases htrim : trim line with
    | nil =>
      rw [htrim, List.append_nil] at hline
      exact .inl (hline ▸ List.forall_mem_append.mpr ⟨hbefore, hafter⟩)
    | cons mark rest =>
      rw [htrim] at h hline
      refine .inr ⟨before, mark, rest ++ after, ?_, hbefore, by simpa [isComment] using h⟩
      rw [hline, List.append_assoc, List.cons_append]
  · rintro (hblank | ⟨before, mark, rest, rfl, hbefore, hmark⟩)
    · rw [trim_of_blank hblank]
      rfl
    · have hvisible : isBlank mark = false := by rcases hmark with rfl | rfl <;> decide
      obtain ⟨left, hleft⟩ := exists_trim_cons hbefore hvisible rest
      rw [hleft]
      simpa [isComment] using hmark

/-- The white space that is taken away contains no field. -/
theorem fields_trim (line : List Char) : fields isFieldSeparator (trim line) = fields isFieldSeparator line := by
  obtain ⟨before, after, hbefore, hafter, hline⟩ := exists_trim line
  conv_rhs => rw [hline]
  rw [fields_append_gap fun c hc => isFieldSeparator_of_isBlank (hafter c hc),
    fields_gap_append fun c hc => isFieldSeparator_of_isBlank (hbefore c hc)]

theorem ofLine_of_silent {line : List Char} (h : Silent line) (number : Nat) : ofLine number line = .ok none := by
  rw [ofLine]
  exact if_pos (isComment_trim_iff.mpr h)

theorem ofLine_of_not_silent {line : List Char} (h : ¬ Silent line) (number : Nat) :
    ofLine number line = (ofFields number (fields isFieldSeparator line)).map some := by
  rw [ofLine, ← fields_trim line]
  exact if_neg fun hcomment => h (isComment_trim_iff.mp hcomment)

/-- No field of a record begins as a comment does. -/
theorem not_silent_of_spells {line : List Char} {record : EdgeRecord}
    (h : Spells (fields isFieldSeparator line) record) : ¬ Silent line := by
  rintro (hblank | ⟨before, mark, rest, rfl, hbefore, hmark⟩)
  · have hnone := fields_gap_append (fun c hc => isFieldSeparator_of_isBlank (hblank c hc)) []
    rw [List.append_nil, fields_nil] at hnone
    rw [hnone] at h
    cases h
  · have hvisible : isFieldSeparator mark = false := by rcases hmark with rfl | rfl <;> decide
    obtain ⟨word, others, hfields⟩ := exists_fields_cons hvisible rest
    rw [fields_gap_append fun c hc => isFieldSeparator_of_isBlank (hbefore c hc), hfields] at h
    have hfirst : ∃ value, IsNumeralOf (mark :: word) value := by
      cases h with
      | unweighted hsource htarget => exact ⟨_, hsource⟩
      | weighted hsource htarget hweight => exact ⟨_, hsource⟩
    obtain ⟨_, digits, hdigits | hplus, -, hall, -⟩ := hfirst
    · have hdigit := hall mark (hdigits ▸ List.mem_cons_self)
      rcases hmark with rfl | rfl <;> exact absurd hdigit (by decide)
    · rcases hmark with rfl | rfl <;> exact absurd (List.cons.inj hplus).1 (by decide)

/-- A line that may stand in an edge list: it is silent, or the non-empty stretches between its separators are the
fields of a record. -/
def Readable (line : List Char) : Prop :=
  Silent line ∨
    ∃ record, Spells ((line.splitOnP isFieldSeparator).filter fun piece => !piece.isEmpty) record

/-- Where not all lines are readable, there is a first that is not. -/
theorem exists_first_unreadable {lines : List (List Char)} (h : ∃ line ∈ lines, ¬ Readable line) :
    ∃ before line after, lines = before ++ line :: after ∧ (∀ earlier ∈ before, Readable earlier) ∧
      ¬ Readable line := by
  classical
  have hfound : (lines.find? fun line => decide (¬ Readable line)).isSome = true := by simpa using h
  obtain ⟨line, hline⟩ := Option.isSome_iff_exists.mp hfound
  obtain ⟨hnot, before, after, rfl, hbefore⟩ := List.find?_eq_some_iff_append.mp hline
  exact ⟨before, line, after, rfl, fun earlier hearlier => by simpa using hbefore earlier hearlier,
    by simpa using hnot⟩

theorem exists_ofLine_of_readable {line : List Char} (h : Readable line) (number : Nat) :
    ∃ found, ofLine number line = .ok found := by
  rcases h with hsilent | ⟨record, hspells⟩
  · exact ⟨none, ofLine_of_silent hsilent number⟩
  · rw [← fields_eq] at hspells
    rw [ofLine_of_not_silent (not_silent_of_spells hspells), ofFields_eq_ok_iff.mpr hspells]
    exact ⟨some record, rfl⟩

theorem exists_ofLine_of_not_readable {line : List Char} (h : ¬ Readable line) (number : Nat) :
    ∃ failure, ofLine number line = .error failure ∧ Names number failure := by
  obtain ⟨hsilent, hspells⟩ := not_or.mp h
  rw [ofLine_of_not_silent hsilent]
  cases hfields : ofFields number (fields isFieldSeparator line) with
  | ok record =>
    rw [← fields_eq] at hspells
    exact absurd ⟨record, ofFields_eq_ok_iff.mp hfields⟩ hspells
  | error failure => exact ⟨failure, rfl, ofFields_eq_error hfields⟩

/-- A line that is refused cannot be read. -/
theorem not_readable_of_ofLine {number : Nat} {line : List Char} {failure : Failure}
    (h : ofLine number line = .error failure) : ¬ Readable line := by
  intro hline
  obtain ⟨found, hfound⟩ := exists_ofLine_of_readable hline number
  rw [hfound] at h
  cases h

/-! ## Writing -/

/-- An id as it is written. -/
def idText (id : UInt64) : List Char := Nat.toDigits 10 id.toNat

/-- The ways in which a record may be written on a line: separators between the fields, and around them at
will.  The text of a weight is any that is read as that weight. -/
inductive WrittenAs : EdgeRecord → List Char → Prop
  /-- Without a weight. -/
  | unweighted {before between after : List Char} (source target : UInt64) (hbefore : IsGap before)
      (hne : between ≠ []) (hbetween : IsGap between) (hafter : IsGap after) :
      WrittenAs ⟨source, target, none⟩ (before ++ idText source ++ between ++ idText target ++ after)
  /-- With a weight. -/
  | weighted {before between further after weight : List Char} (source target : UInt64) {value : Binary64}
      (hweight : parseDouble? (String.ofList weight) = some value) (hbefore : IsGap before)
      (hne : between ≠ []) (hbetween : IsGap between) (hfurther : IsGap further) (hfurtherNe : further ≠ [])
      (hafter : IsGap after) :
      WrittenAs ⟨source, target, some value.toFloat⟩
        (before ++ idText source ++ between ++ idText target ++ further ++ weight ++ after)

/-- A line without its end, and what is written on it: one record or none. -/
inductive IsLine : List EdgeRecord → List Char → Prop
  /-- A blank line or a comment. -/
  | silent {line : List Char} (hsilent : Silent line) (hline : '\n' ∉ line) : IsLine [] line
  /-- A record. -/
  | record {record : EdgeRecord} {line : List Char} (hwritten : WrittenAs record line) : IsLine [record] line

theorem fields_idText (id : UInt64) : fields isFieldSeparator (idText id) = [idText id] :=
  fields_of_free Nat.toDigits_ne_nil fun c hc =>
    (IsNumeralChar.of_isDigit (Nat.isDigit_of_mem_toDigits (by decide) (by decide) hc)).isFieldSeparator_eq

theorem fields_weight {weight : List Char} {value : Binary64}
    (h : parseDouble? (String.ofList weight) = some value) : fields isFieldSeparator weight = [weight] :=
  fields_of_free (ne_nil_of_parseDouble? h) fun c hc => (numeralChar_of_parseDouble? h c hc).isFieldSeparator_eq

/-- The fields of a written record spell it. -/
theorem WrittenAs.spells {record : EdgeRecord} {line : List Char} (h : WrittenAs record line) :
    Spells (fields isFieldSeparator line) record := by
  cases h with
  | unweighted source target hbefore hne hbetween hafter =>
    rw [fields_append_gap hafter.separators, fields_append_gap_append hne hbetween.separators,
      fields_gap_append hbefore.separators, fields_idText, fields_idText]
    exact .unweighted (isNumeralOf_toDigits _) (isNumeralOf_toDigits _)
  | weighted source target hweight hbefore hne hbetween hfurther hfurtherNe hafter =>
    rw [fields_append_gap hafter.separators, fields_append_gap_append hfurtherNe hfurther.separators,
      fields_append_gap_append hne hbetween.separators, fields_gap_append hbefore.separators, fields_idText,
      fields_idText, fields_weight hweight]
    exact .weighted (isNumeralOf_toDigits _) (isNumeralOf_toDigits _) hweight

/-- A written record stays on its line. -/
theorem WrittenAs.not_mem {record : EdgeRecord} {line : List Char} (h : WrittenAs record line) : '\n' ∉ line := by
  have hseparator : isFieldSeparator '\n' = true := by decide
  have hid : ∀ id, '\n' ∉ idText id := fun id hmem => by
    have hfree := (IsNumeralChar.of_isDigit
      (Nat.isDigit_of_mem_toDigits (by decide) (by decide) hmem)).isFieldSeparator_eq
    exact absurd (hseparator.symm.trans hfree) (by decide)
  cases h with
  | unweighted source target hbefore hne hbetween hafter =>
    simp [hid, hbefore.not_mem, hbetween.not_mem, hafter.not_mem]
  | weighted source target hweight hbefore hne hbetween hfurther hfurtherNe hafter =>
    have hnumeral := fun hmem =>
      hseparator.symm.trans (numeralChar_of_parseDouble? hweight _ hmem).isFieldSeparator_eq
    simp [hid, hbefore.not_mem, hbetween.not_mem, hfurther.not_mem, hafter.not_mem]
    simpa using hnumeral

theorem IsLine.not_mem {records : List EdgeRecord} {line : List Char} (h : IsLine records line) :
    '\n' ∉ line := by
  cases h with
  | silent hsilent hline => exact hline
  | record hwritten => exact hwritten.not_mem

/-- A carriage return at the end of a line changes nothing about what is written on it. -/
theorem IsLine.withReturn {records : List EdgeRecord} {line : List Char} (h : IsLine records line) :
    IsLine records (line ++ ['\r']) := by
  cases h with
  | silent hsilent hline =>
    refine .silent ?_ (by simp [hline])
    rcases hsilent with hblank | ⟨before, mark, rest, rfl, hbefore, hmark⟩
    · exact .inl (List.forall_mem_append.mpr ⟨hblank, List.forall_mem_singleton.mpr (by decide)⟩)
    · exact .inr ⟨before, mark, rest ++ ['\r'], by simp, hbefore, hmark⟩
  | record hwritten =>
    have hreturn : ∀ {after : List Char}, IsGap after → IsGap (after ++ ['\r']) := fun hafter =>
      List.forall_mem_append.mpr ⟨hafter, List.forall_mem_singleton.mpr (by decide)⟩
    refine .record ?_
    cases hwritten with
    | unweighted source target hbefore hne hbetween hafter =>
      rw [List.append_assoc]
      exact .unweighted source target hbefore hne hbetween (hreturn hafter)
    | weighted source target hweight hbefore hne hbetween hfurther hfurtherNe hafter =>
      rw [List.append_assoc]
      exact .weighted source target hweight hbefore hne hbetween hfurther hfurtherNe (hreturn hafter)

/-- Of a line what is written on it is read. -/
theorem IsLine.ofLine_eq {records : List EdgeRecord} {line : List Char} (h : IsLine records line) (number : Nat) :
    ∃ found, ofLine number line = .ok found ∧ found.toList = records := by
  cases h with
  | silent hsilent hline => exact ⟨none, ofLine_of_silent hsilent number, rfl⟩
  | record hwritten =>
    have hspells := hwritten.spells
    rw [ofLine_of_not_silent (not_silent_of_spells hspells), ofFields_eq_ok_iff.mpr hspells]
    exact ⟨some _, rfl, rfl⟩

end EdgeRecord

/-- The report that prefers one failure to all others. -/
def FaultReport.preferring (preferred : Failure) : FaultReport where
  pick first later := if preferred ∈ first :: later then preferred else first
  pick_mem first later := by
    split
    · assumption
    · exact List.mem_cons_self

namespace EdgeList

/-- The ways in which a list of records may be written: line by line, with blank lines and comments at will.  A
line ends with a line feed, which may have a carriage return in front of it; the last line may lack its end. -/
inductive WrittenAs : List EdgeRecord → List Char → Prop
  /-- The last line. -/
  | last {records : List EdgeRecord} {line : List Char} (hline : EdgeRecord.IsLine records line) :
      WrittenAs records line
  /-- A line in front of others. -/
  | line {records others : List EdgeRecord} {line ending rest : List Char}
      (hline : EdgeRecord.IsLine records line) (hending : ending = ['\n'] ∨ ending = ['\r', '\n'])
      (hrest : WrittenAs others rest) : WrittenAs (records ++ others) (line ++ ending ++ rest)

theorem pieces_lines (text : List Char) : pieces (· == '\n') text = text.splitOn '\n' :=
  pieces_eq_splitOnP text

/-- The first line ends where the first line feed stands. -/
theorem splitOn_line {line : List Char} (hline : '\n' ∉ line) (rest : List Char) :
    (line ++ '\n' :: rest).splitOn '\n' = line :: rest.splitOn '\n' :=
  List.splitOnP_append_cons_of_forall_mem
    (fun _ hc => beq_eq_false_iff_ne.mpr (ne_of_mem_of_not_mem hc hline)) _ (by decide) _

theorem splitOn_last {line : List Char} (hline : '\n' ∉ line) : line.splitOn '\n' = [line] :=
  List.splitOnP_eq_singleton fun _ hc => beq_eq_false_iff_ne.mpr (ne_of_mem_of_not_mem hc hline)

/-- Of lines what is written on them is read, wherever they stand, and none is at fault. -/
theorem WrittenAs.map_readNumbered {records : List EdgeRecord} {text : List Char} (h : WrittenAs records text)
    (start : Nat) : (((text.splitOn '\n').zipIdx start).map readNumbered).filterMap failure? = [] ∧
      (((text.splitOn '\n').zipIdx start).map readNumbered).filterMap record? = records := by
  induction h generalizing start with
  | last hline =>
    obtain ⟨found, hfound, rfl⟩ := hline.ofLine_eq (start + 1)
    rw [splitOn_last hline.not_mem, List.zipIdx_singleton, List.map_singleton, readNumbered, hfound]
    cases found <;> exact ⟨rfl, rfl⟩
  | @line records others line ending rest hline hending hrest ih =>
    obtain ⟨hnone, hothers⟩ := ih (start + 1)
    have hends : ∃ whole, EdgeRecord.IsLine records whole ∧ line ++ ending ++ rest = whole ++ '\n' :: rest := by
      rcases hending with rfl | rfl
      · exact ⟨line, hline, by simp⟩
      · exact ⟨line ++ ['\r'], hline.withReturn, by simp⟩
    obtain ⟨whole, hwhole, htext⟩ := hends
    obtain ⟨first, hfirst, rfl⟩ := hwhole.ofLine_eq (start + 1)
    rw [htext, splitOn_line hwhole.not_mem, List.zipIdx_cons, List.map_cons, readNumbered, hfirst]
    refine ⟨hnone, ?_⟩
    cases first with
    | none => exact hothers
    | some record => exact congrArg (record :: ·) hothers

/-! ## Lines at fault -/

/-- A line is at fault with a failure that names it. -/
def AtFault (lines : List (List Char)) (number : Nat) (failure : Failure) : Prop :=
  ∃ line, lines[number]? = some line ∧ ¬ EdgeRecord.Readable line ∧ EdgeRecord.Names (number + 1) failure

/-- The failures of lines are those of the lines at fault. -/
theorem atFault_of_mem {lines : List (List Char)} {failure : Failure}
    (h : failure ∈ (lines.zipIdx.map readNumbered).filterMap failure?) :
    ∃ number, AtFault lines number failure := by
  obtain ⟨result, hresult, hfailure⟩ := List.mem_filterMap.mp h
  obtain ⟨⟨line, number⟩, hmem, rfl⟩ := List.mem_map.mp hresult
  refine ⟨number, line, List.mem_zipIdx_iff_getElem?.mp hmem, ?_⟩
  by_cases hline : EdgeRecord.Readable line
  · obtain ⟨found, hfound⟩ := EdgeRecord.exists_ofLine_of_readable hline (number + 1)
    rw [readNumbered, hfound] at hfailure
    cases hfailure
  · obtain ⟨cause, hcause, hnames⟩ := EdgeRecord.exists_ofLine_of_not_readable hline (number + 1)
    rw [readNumbered, hcause] at hfailure
    obtain rfl := Option.some.inj hfailure
    exact ⟨hline, hnames⟩

/-- Every line at fault has a failure that names it. -/
theorem exists_failure_of_not_readable {lines : List (List Char)} {number : Nat} {line : List Char}
    (hline : lines[number]? = some line) (hnot : ¬ EdgeRecord.Readable line) :
    ∃ failure ∈ (lines.zipIdx.map readNumbered).filterMap failure?, AtFault lines number failure := by
  obtain ⟨failure, hfailure, hnames⟩ := EdgeRecord.exists_ofLine_of_not_readable hnot (number + 1)
  refine ⟨failure, List.mem_filterMap.mpr ⟨.error failure, ?_, rfl⟩, line, hline, hnot, hnames⟩
  exact List.mem_map.mpr ⟨(line, number), List.mem_zipIdx_iff_getElem?.mpr hline, hfailure⟩

/-- The first failure is that of the first line at fault. -/
theorem head?_failures {before after : List (List Char)} {line : List Char}
    (hbefore : ∀ earlier ∈ before, EdgeRecord.Readable earlier) (hline : ¬ EdgeRecord.Readable line) :
    ∃ failure, (((before ++ line :: after).zipIdx.map readNumbered).filterMap failure?).head? = some failure ∧
      EdgeRecord.Names (before.length + 1) failure := by
  obtain ⟨failure, hfailure, hnames⟩ := EdgeRecord.exists_ofLine_of_not_readable hline (before.length + 1)
  have hnone : (before.zipIdx.map readNumbered).filterMap failure? = [] := by
    refine List.eq_nil_iff_forall_not_mem.mpr fun cause hcause => ?_
    obtain ⟨number, earlier, hplace, hnot, -⟩ := atFault_of_mem hcause
    exact hnot (hbefore earlier (List.mem_of_getElem? hplace))
  refine ⟨failure, ?_, hnames⟩
  rw [List.zipIdx_append, List.map_append, List.filterMap_append, hnone, List.zipIdx_cons, List.map_cons,
    Nat.zero_add, readNumbered, hfailure]
  rfl

/-- Of several lines at fault, any one may be reported. -/
theorem exists_recordsOf_eq_error {lines : List (List Char)} {number : Nat} {line : List Char}
    (hline : lines[number]? = some line) (hnot : ¬ EdgeRecord.Readable line) :
    ∃ report failure, recordsOf report lines = .error failure ∧ AtFault lines number failure := by
  obtain ⟨failure, hfailure, hfault⟩ := exists_failure_of_not_readable hline hnot
  refine ⟨.preferring failure, failure, ?_, hfault⟩
  rw [recordsOf]
  cases hfailures : (lines.zipIdx.map readNumbered).filterMap failure? with
  | nil =>
    rw [hfailures] at hfailure
    exact absurd hfailure List.not_mem_nil
  | cons first later =>
    have hpicked : (FaultReport.preferring failure).pick first later = failure := if_pos (hfailures ▸ hfailure)
    simp only [hpicked]

theorem readWith_toUTF8 (report : FaultReport) (path : String) (text : String) (defaultWeight : Float) :
    readWith report path (.content text.toUTF8) defaultWeight =
      (recordsOf report (text.toList.splitOn '\n')).map (ofRecords defaultWeight) := by
  have hdecoded : String.fromUTF8? text.toUTF8 = some text := dif_pos text.isValidUTF8
  rw [readWith, hdecoded, ← pieces_lines]
  rfl

/-- **Reading an edge list is the inverse of writing it.**  However a list of records is written in a file, these
records are read, in order and with the default weight where none is written, and the list is weighted just in case
some weight is.  And if some line of a file is neither blank nor a comment nor a record, there is no list but a
failure that names such a line, counted from one: the first one if a worker alone reads the file, and any of them,
as it happens, if several do. -/
theorem read_of_written (path : String) (defaultWeight : Float) (text : String) :
    (∀ records, WrittenAs records text.toList → ∀ report, readWith report path (.content text.toUTF8) defaultWeight =
      .ok ⟨records.map fun r => ⟨r.source, r.target, r.weight.getD defaultWeight⟩,
        records.any fun r => r.weight.isSome⟩) ∧
    ((∃ line ∈ text.toList.splitOn '\n', ¬ EdgeRecord.Readable line) →
      (∀ report, ∃ number failure,
        readWith report path (.content text.toUTF8) defaultWeight = .error failure ∧
          AtFault (text.toList.splitOn '\n') number failure) ∧
      (∀ (number : Nat) (line : List Char), (text.toList.splitOn '\n')[number]? = some line →
        ¬ EdgeRecord.Readable line →
        ∃ report failure, readWith report path (.content text.toUTF8) defaultWeight = .error failure ∧
          AtFault (text.toList.splitOn '\n') number failure) ∧
      ∃ before line after, text.toList.splitOn '\n' = before ++ line :: after ∧
        (∀ earlier ∈ before, EdgeRecord.Readable earlier) ∧ ¬ EdgeRecord.Readable line ∧
        ∃ failure, read path (.content text.toUTF8) defaultWeight = .error failure ∧
          EdgeRecord.Names (before.length + 1) failure) := by
  rw [read]
  simp only [readWith_toUTF8]
  generalize text.toList = content
  constructor
  · intro records hwritten report
    obtain ⟨hnone, hrecords⟩ := hwritten.map_readNumbered 0
    rw [recordsOf, hnone, hrecords]
    rfl
  · intro hsome
    obtain ⟨before, line, after, hlines, hbefore, hline⟩ := EdgeRecord.exists_first_unreadable hsome
    obtain ⟨first, hfirst, hnames⟩ := @head?_failures before after line hbefore hline
    rw [← hlines] at hfirst
    obtain ⟨later, hfailures⟩ := List.head?_eq_some_iff.mp hfirst
    have hreported : ∀ report, recordsOf report (content.splitOn '\n') = .error (report.pick first later) := by
      intro report
      rw [recordsOf, hfailures]
    refine ⟨fun report => ?_, fun number other hother hnot => ?_, before, line, after, hlines, hbefore, hline, first,
      ?_, hnames⟩
    · have hmem := report.pick_mem first later
      rw [← hfailures] at hmem
      obtain ⟨number, hfault⟩ := atFault_of_mem hmem
      exact ⟨number, _, by rw [hreported]; rfl, hfault⟩
    · obtain ⟨report, failure, hrefused, hfault⟩ := exists_recordsOf_eq_error hother hnot
      exact ⟨report, failure, by rw [hrefused]; rfl, hfault⟩
    · rw [hreported]
      rfl

/-- A comment, a blank line, both ways to end a line and both separators, one record with a weight and one
without; and a second line with a target that is no number, behind a line that can be read. -/
theorem read_of_written_mixed :
    (∃ value, parseDouble? "2.5" = some value ∧
      read "edges.txt" (.content "% edges\n 10, 20\r\n\n20\t30 2.5,".toUTF8) 1 =
        .ok ⟨[⟨10, 20, 1⟩, ⟨20, 30, value.toFloat⟩], true⟩) ∧
      ∃ failure, read "edges.txt" (.content "1 2\n3 x".toUTF8) 1 = .error failure ∧
        EdgeRecord.Names 2 failure := by
  constructor
  · obtain ⟨value, hvalue⟩ := Option.isSome_iff_exists.mp
      (show (parseDouble? (String.ofList ['2', '.', '5'])).isSome = true by decide)
    have hcomment : EdgeRecord.IsLine [] ("% edges".toList) :=
      .silent (.inr ⟨[], '%', " edges".toList, rfl, by simp, .inr rfl⟩) (by decide)
    have hfirst : EdgeRecord.IsLine [⟨10, 20, none⟩] (" 10, 20".toList) :=
      .record (@EdgeRecord.WrittenAs.unweighted [' '] [',', ' '] [] 10 20 (by decide) (by decide) (by decide)
        (by decide))
    have hblank : EdgeRecord.IsLine [] [] := .silent (.inl (by simp)) (by simp)
    have hsecond : EdgeRecord.IsLine [⟨20, 30, some value.toFloat⟩] ("20\t30 2.5,".toList) :=
      .record (@EdgeRecord.WrittenAs.weighted [] ['\t'] [' '] [','] ['2', '.', '5'] 20 30 value hvalue (by decide)
        (by decide) (by decide) (by decide) (by decide) (by decide))
    have hwritten : WrittenAs [⟨10, 20, none⟩, ⟨20, 30, some value.toFloat⟩]
        "% edges\n 10, 20\r\n\n20\t30 2.5,".toList :=
      .line hcomment (.inl rfl) (.line hfirst (.inr rfl) (.line hblank (.inl rfl) (.last hsecond)))
    exact ⟨value, hvalue, (read_of_written "edges.txt" 1 _).1 _ hwritten .ofOneWorker⟩
  · have hsplit : "1 2\n3 x".toList.splitOn '\n' = ["1 2".toList, "3 x".toList] := by decide
    have hfirst : EdgeRecord.Readable "1 2".toList := .inr ⟨⟨1, 2, none⟩,
      .unweighted (isNumeralOf_toDigits 1) (isNumeralOf_toDigits 2)⟩
    have hsecond : ¬ EdgeRecord.Readable "3 x".toList :=
      @EdgeRecord.not_readable_of_ofLine 2 _
        (.within "line 2: invalid target id 'x'" (.remark "invalid digit found in string")) rfl
    obtain ⟨-, -, before, line, after, hlines, hbefore, hline, failure, hfailure, hnames⟩ :=
      (read_of_written "edges.txt" 1 "1 2\n3 x").2 ⟨"3 x".toList, by rw [hsplit]; simp, hsecond⟩
    rw [hsplit] at hlines
    obtain _ | ⟨earlier, _ | ⟨other, before⟩⟩ := before
    · exact absurd ((List.cons.inj hlines).1 ▸ hfirst) hline
    · exact ⟨failure, hfailure, hnames⟩
    · simp at hlines

/-- Where two lines are at fault, the failure of the second one may be reported. -/
theorem second_fault_reported :
    (∀ line ∈ "x 1\ny 2".toList.splitOn '\n', ¬ EdgeRecord.Readable line) ∧
      ∃ report failure, readWith report "edges.txt" (.content "x 1\ny 2".toUTF8) 1 = .error failure ∧
        EdgeRecord.Names 2 failure ∧ ¬ EdgeRecord.Names 1 failure := by
  have hsplit : "x 1\ny 2".toList.splitOn '\n' = ["x 1".toList, "y 2".toList] := by decide
  have hfirst : ¬ EdgeRecord.Readable "x 1".toList := @EdgeRecord.not_readable_of_ofLine 1 _
    (.within "line 1: invalid source id 'x'" (.remark "invalid digit found in string")) rfl
  have hsecond : ¬ EdgeRecord.Readable "y 2".toList := @EdgeRecord.not_readable_of_ofLine 2 _
    (.within "line 2: invalid source id 'y'" (.remark "invalid digit found in string")) rfl
  obtain ⟨report, failure, hrefused, line, -, -, hnames⟩ :=
    @exists_recordsOf_eq_error ["x 1".toList, "y 2".toList] 1 _ rfl hsecond
  refine ⟨?_, report, failure, ?_, hnames, ?_⟩
  · rw [hsplit]
    exact List.forall_mem_cons.mpr ⟨hfirst, List.forall_mem_singleton.mpr hsecond⟩
  · rw [readWith_toUTF8, hsplit, hrefused]
    rfl
  · rintro ⟨other, hother⟩
    obtain ⟨said, hsaid⟩ := hnames
    have hsame := congrArg (fun text : String => text.toList[5]?) (Option.some.inj (hsaid.symm.trans hother))
    simp only [String.toList_append] at hsame
    have hdigits : some '2' = some '1' := hsame
    exact absurd hdigits (by decide)

end EdgeList

end PackedGraph
