import PackedGraph.Numeric.Decimal

/-!
# What is read as a number

A word is read from an optional plus sign and decimal digits whose value fits into 64 bits, and from nothing
else.  What is read as a double consists of letters, digits, signs and points.

Main statements: `parseWord_eq_ok_iff` and `numeralChar_of_parseDouble?`.
-/

namespace PackedGraph

/-! ## Digits -/

theorem digitValue?_eq (c : Char) :
    digitValue? c = if c.isDigit then some (c.toNat - '0'.toNat) else none := by
  have hdigit : (c.isDigit = true) ↔ '0' ≤ c ∧ c ≤ '9' := by
    rw [Char.isDigit, Bool.and_eq_true, decide_eq_true_iff, decide_eq_true_iff]
    rfl
  simp only [digitValue?, hdigit]
  rfl

theorem isDigit_of_digitValue? {c : Char} {d : Nat} (h : digitValue? c = some d) : c.isDigit = true := by
  rw [digitValue?_eq] at h
  split at h
  case isTrue hc => exact hc
  case isFalse => exact absurd h (by simp)

/-- More digits make no number smaller. -/
theorem le_ofDigitChars (digits : List Char) (start : Nat) : start ≤ Nat.ofDigitChars 10 digits start := by
  induction digits generalizing start with
  | nil => exact Nat.le_refl start
  | cons c digits ih =>
    rw [Nat.ofDigitChars_cons]
    have := ih (10 * start + (c.toNat - '0'.toNat))
    omega

/-- Digits are read from the left as long as the value fits, so all of them are just in case the value of all
of them does. -/
theorem parseWordDigits_eq_ok_iff {start : Nat} (hstart : start < wordBound) {digits : List Char} {value : Nat} :
    parseWordDigits start digits = .ok value ↔
      (∀ c ∈ digits, c.isDigit = true) ∧ Nat.ofDigitChars 10 digits start = value ∧ value < wordBound := by
  induction digits generalizing start with
  | nil =>
    rw [parseWordDigits, Nat.ofDigitChars_nil]
    constructor
    · intro h
      obtain rfl := Except.ok.inj h
      exact ⟨by simp, rfl, hstart⟩
    · rintro ⟨-, rfl, -⟩
      rfl
  | cons c digits ih =>
    rw [parseWordDigits, digitValue?_eq, Nat.ofDigitChars_cons, List.forall_mem_cons]
    by_cases hc : c.isDigit = true
    · simp only [hc, if_true, true_and]
      by_cases hnext : 10 * start + (c.toNat - '0'.toNat) < wordBound
      · rw [if_pos hnext]
        exact ih hnext
      · rw [if_neg hnext]
        have hle := le_ofDigitChars digits (10 * start + (c.toNat - '0'.toNat))
        refine iff_of_false (by simp) ?_
        rintro ⟨-, rfl, hfits⟩
        omega
    · simp [hc]

/-! ## Words -/

/-- An optional plus sign and at least one decimal digit, and the number that the digits stand for. -/
def IsNumeralOf (text : List Char) (value : Nat) : Prop :=
  ∃ digits, (text = digits ∨ text = '+' :: digits) ∧ digits ≠ [] ∧ (∀ c ∈ digits, c.isDigit = true) ∧
    Nat.ofDigitChars 10 digits 0 = value

theorem parseWordDigits_map_eq_ok_iff {digits : List Char} {word : UInt64} :
    (parseWordDigits 0 digits).map UInt64.ofNat = .ok word ↔
      (∀ c ∈ digits, c.isDigit = true) ∧ Nat.ofDigitChars 10 digits 0 = word.toNat := by
  have hzero : 0 < wordBound := by decide
  have hword : word.toNat < wordBound := word.toNat_lt
  constructor
  · intro h
    cases hparse : parseWordDigits 0 digits with
    | error cause => exact absurd (hparse ▸ h) (by simp [Except.map])
    | ok value =>
      rw [hparse] at h
      obtain rfl := Except.ok.inj h
      obtain ⟨hdigits, hvalue, hfits⟩ := (parseWordDigits_eq_ok_iff hzero).mp hparse
      exact ⟨hdigits, hvalue.trans (UInt64.toNat_ofNat_of_lt' hfits).symm⟩
  · rintro ⟨hdigits, hvalue⟩
    rw [(parseWordDigits_eq_ok_iff hzero).mpr ⟨hdigits, hvalue, hword⟩, Except.map, UInt64.ofNat_toNat]

/-- A word is read from numerals of words, and from nothing else. -/
theorem parseWord_eq_ok_iff {text : List Char} {word : UInt64} :
    parseWord (String.ofList text) = .ok word ↔ IsNumeralOf text word.toNat := by
  rw [parseWord, String.toList_ofList]
  split
  case h_1 => exact iff_of_false (by simp) (by rintro ⟨digits, rfl | h, hne, -⟩ <;> simp_all)
  case h_2 =>
    refine iff_of_false (by simp) ?_
    rintro ⟨digits, rfl | h, hne, hdigits, -⟩
    · exact absurd (hdigits '+' (List.mem_singleton_self _)) (by decide)
    · exact hne (List.cons.inj h).2.symm
  case h_3 digits hsome =>
    rw [parseWordDigits_map_eq_ok_iff]
    constructor
    · rintro ⟨hdigits, hvalue⟩
      exact ⟨digits, .inr rfl, hsome, hdigits, hvalue⟩
    · rintro ⟨_, rfl | h, -, hdigits, hvalue⟩
      · exact absurd (hdigits '+' List.mem_cons_self) (by decide)
      · obtain rfl := (List.cons.inj h).2
        exact ⟨hdigits, hvalue⟩
  case h_4 hempty _ hplus =>
    rw [parseWordDigits_map_eq_ok_iff]
    constructor
    · rintro ⟨hdigits, hvalue⟩
      exact ⟨text, .inl rfl, hempty, hdigits, hvalue⟩
    · rintro ⟨digits, rfl | rfl, -, hdigits, hvalue⟩
      · exact ⟨hdigits, hvalue⟩
      · exact absurd rfl (hplus digits)

/-- The decimal digits of a number are a numeral of it. -/
theorem isNumeralOf_toDigits (n : Nat) : IsNumeralOf (Nat.toDigits 10 n) n :=
  ⟨_, .inl rfl, Nat.toDigits_ne_nil, fun _ hc => Nat.isDigit_of_mem_toDigits (by decide) (by decide) hc,
    Nat.ofDigitChars_toDigits (by decide) (by decide)⟩

/-! ## Doubles -/

/-- The characters from the plus sign to the letter z but for the comma.  Those of numerals are among them. -/
def IsNumeralChar (c : Char) : Prop := 43 ≤ c.toNat ∧ c.toNat ≤ 122 ∧ c.toNat ≠ 44

instance (c : Char) : Decidable (IsNumeralChar c) := instDecidableAnd

theorem IsNumeralChar.of_isDigit {c : Char} (h : c.isDigit = true) : IsNumeralChar c := by
  rw [Char.isDigit, Bool.and_eq_true, decide_eq_true_iff, decide_eq_true_iff, ge_iff_le,
    UInt32.le_iff_toNat_le, UInt32.le_iff_toNat_le] at h
  change 48 ≤ c.toNat ∧ c.toNat ≤ 57 at h
  unfold IsNumeralChar
  omega

/-- Capital and small letters of the alphabet. -/
theorem IsNumeralChar.of_toLower {c : Char} (h : 97 ≤ c.toLower.toNat ∧ c.toLower.toNat ≤ 122) :
    IsNumeralChar c := by
  unfold IsNumeralChar
  by_cases hcapital : c.val ≥ 'A'.val ∧ c.val ≤ 'Z'.val
  · rw [ge_iff_le, UInt32.le_iff_toNat_le, UInt32.le_iff_toNat_le] at hcapital
    change 65 ≤ c.toNat ∧ c.toNat ≤ 90 at hcapital
    omega
  · have hsame : c.toLower = c := dif_neg hcapital
    rw [hsame] at h
    omega

/-- Digits are taken from the front. -/
theorem exists_takeDigits (value count : Nat) (text : List Char) :
    ∃ digits, (∀ c ∈ digits, c.isDigit = true) ∧ text = digits ++ (takeDigits value count text).2.2 := by
  induction text generalizing value count with
  | nil => exact ⟨[], by simp, rfl⟩
  | cons c text ih =>
    rw [takeDigits]
    cases hc : digitValue? c with
    | none => exact ⟨[], by simp, rfl⟩
    | some d =>
      obtain ⟨digits, hdigits, htext⟩ := ih (10 * value + d) (count + 1)
      refine ⟨c :: digits, List.forall_mem_cons.mpr ⟨isDigit_of_digitValue? hc, hdigits⟩, ?_⟩
      rw [List.cons_append, ← htext]

/-- What is read behind a test has been read. -/
theorem exists_of_unless {α β : Type} {p : Prop} [Decidable p] {found : Option α} {f : α → β} {b : β}
    (h : (if p then none else found.map f) = some b) : ∃ a, found = some a := by
  split at h
  case isTrue => exact absurd h (by simp)
  case isFalse =>
    obtain ⟨a, ha, -⟩ := Option.map_eq_some_iff.mp h
    exact ⟨a, ha⟩

theorem isDigit_of_mapM_digitValue? {digits : List Char} {values : List Nat}
    (h : digits.mapM digitValue? = some values) : ∀ c ∈ digits, c.isDigit = true := by
  induction digits generalizing values with
  | nil => simp
  | cons c digits ih =>
    rw [List.mapM_cons] at h
    obtain ⟨d, hd, h⟩ := Option.bind_eq_some_iff.mp h
    obtain ⟨others, hothers, -⟩ := Option.bind_eq_some_iff.mp h
    exact List.forall_mem_cons.mpr ⟨isDigit_of_digitValue? hd, ih hothers⟩

/-- A sign is made of such a character too. -/
theorem numeralChar_of_sign {text body : List Char} (h : ∀ c ∈ body, IsNumeralChar c)
    (htext : text = body ∨ text = '-' :: body ∨ text = '+' :: body) : ∀ c ∈ text, IsNumeralChar c := by
  rcases htext with rfl | rfl | rfl
  · exact h
  · exact List.forall_mem_cons.mpr ⟨by decide, h⟩
  · exact List.forall_mem_cons.mpr ⟨by decide, h⟩

/-- An exponent is a letter, an optional sign and digits. -/
theorem numeralChar_of_parseExponent? {text : List Char} {e : Int} (h : parseExponent? text = some e) :
    ∀ c ∈ text, IsNumeralChar c := by
  cases text with
  | nil => simp
  | cons c rest =>
    rw [parseExponent?.eq_def] at h
    dsimp only at h
    split at h
    case isFalse => exact absurd h (by simp)
    case isTrue hc =>
      have hletter : IsNumeralChar c := by rcases hc with rfl | rfl <;> decide
      refine List.forall_mem_cons.mpr ⟨hletter, ?_⟩
      -- A sign or none; what follows is digits in any case.
      split at h <;> obtain ⟨values, hvalues⟩ := exists_of_unless h <;>
        have hdigits := fun d hd => IsNumeralChar.of_isDigit (isDigit_of_mapM_digitValue? hvalues d hd)
      · exact numeralChar_of_sign hdigits (.inr (.inl rfl))
      · exact numeralChar_of_sign hdigits (.inr (.inr rfl))
      · exact hdigits

/-- A numeral without sign is made of digits, a point and an exponent. -/
theorem numeralChar_of_parseMagnitude? {isNegative : Bool} {text : List Char} {b : Binary64}
    (h : parseMagnitude? isNegative text = some b) : ∀ c ∈ text, IsNumeralChar c := by
  obtain ⟨whole, hwhole, htext⟩ := exists_takeDigits 0 0 text
  unfold parseMagnitude? at h
  dsimp only at h
  suffices hrest : ∀ c ∈ (takeDigits 0 0 text).2.2, IsNumeralChar c by
    rw [htext]
    exact List.forall_mem_append.mpr ⟨fun c hc => .of_isDigit (hwhole c hc), hrest⟩
  split at h <;> obtain ⟨e, he⟩ := exists_of_unless h <;> have hexponent := numeralChar_of_parseExponent? he
  case h_1 fraction hpoint =>
    obtain ⟨digits, hdigits, hfraction⟩ := exists_takeDigits (takeDigits 0 0 text).1 0 fraction
    rw [hpoint, hfraction]
    refine List.forall_mem_cons.mpr ⟨by decide, List.forall_mem_append.mpr ⟨?_, hexponent⟩⟩
    exact fun c hc => .of_isDigit (hdigits c hc)
  case h_2 => exact hexponent

/-- What is read as a double is made of letters, digits, signs and points. -/
theorem numeralChar_of_parseDouble? {text : List Char} {b : Binary64}
    (h : parseDouble? (String.ofList text) = some b) : ∀ c ∈ text, IsNumeralChar c := by
  have hword : ∀ {body : List Char} (word : List Char),
      (word.all fun c => decide (97 ≤ c.toNat ∧ c.toNat ≤ 122)) = true → lowerCase body = word →
        ∀ c ∈ body, IsNumeralChar c := by
    rintro body _ hletters rfl c hc
    exact .of_toLower (of_decide_eq_true (List.all_eq_true.mp hletters _ (List.mem_map_of_mem hc)))
  rw [parseDouble?, String.toList_ofList] at h
  dsimp only at h
  split at h
  case h_1 hlower => exact numeralChar_of_sign (hword _ (by decide) hlower) (by split <;> simp)
  case h_2 hlower => exact numeralChar_of_sign (hword _ (by decide) hlower) (by split <;> simp)
  case h_3 hlower => exact numeralChar_of_sign (hword _ (by decide) hlower) (by split <;> simp)
  case h_4 => exact numeralChar_of_sign (numeralChar_of_parseMagnitude? h) (by split <;> simp)

/-- No double is read from an empty text. -/
theorem ne_nil_of_parseDouble? {text : List Char} {b : Binary64}
    (h : parseDouble? (String.ofList text) = some b) : text ≠ [] := by
  have hempty : parseDouble? (String.ofList []) = none := by decide
  rintro rfl
  exact absurd (hempty.symm.trans h) (by simp)

end PackedGraph
