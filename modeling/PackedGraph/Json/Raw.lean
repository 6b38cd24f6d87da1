import PackedGraph.Numeric.Decimal

/-!
# Reading JSON text

A strict reader: one value, nothing behind it but white space, no comments, no trailing commas, no
leading zeros, no control characters in strings.

A numeral keeps its digits, because what it is worth depends on who asks: `Numeral.word?` takes
integers only, `Numeral.double?` computes with the leading digits that fit into a word and one power
of ten.  A string keeps `none` for its content when its escapes pair surrogates wrongly; only a
reader who needs the content is bothered by that.
-/

namespace PackedGraph.Json

/-- A number as it is spelled. -/
structure Numeral where
  /-- Whether a minus sign stands in front. -/
  negative : Bool
  /-- The digits in front of the point. -/
  whole : List Nat
  /-- The digits behind the point, none where there is no point. -/
  fraction : List Nat
  /-- The exponent where there is one: whether it is negative, and its size. -/
  exponent : Option (Bool × Nat)
  deriving Repr, DecidableEq, Inhabited

/-- A JSON value as it is spelled. -/
inductive Raw where
  | null
  | bool (value : Bool)
  | number (spelling : Numeral)
  | text (content : Option String)
  | list (items : List Raw)
  | record (entries : List (Option String × Raw))
  deriving Inhabited

/-! ## Numbers -/

namespace Numeral

/-- The value of a row of digits. -/
def digitsValue (digits : List Nat) : Nat := digits.foldl (fun value d => 10 * value + d) 0

/-- The value, where the spelling is that of an unsigned word. -/
def word? (n : Numeral) : Option Nat :=
  let value := digitsValue n.whole
  if n.negative ∨ n.fraction ≠ [] ∨ n.exponent.isSome ∨ wordBound ≤ value then none else some value

/-- Append digits to a significand as long as it stays a word; the digits that are left over. -/
def absorb (significand : Nat) : List Nat → Nat × List Nat
  | [] => (significand, [])
  | d :: rest =>
    let next := 10 * significand + d
    if next < wordBound then absorb next rest else (significand, d :: rest)

/-- A power of ten as a double. -/
def tenToThe (n : Nat) : Float := (Binary64.ofRatio false (Nat.pow 10 n) 1).toFloat

/-- `value * 10 ^ power` in double arithmetic, in steps of `10 ^ 308`; nothing where the result is
beyond the range. -/
def scale? : Nat → Float → Int → Option Float
  | 0, value, _ => some value
  | steps + 1, value, power =>
    if power.natAbs ≤ 308 then
      if 0 ≤ power then
        let product := value * tenToThe power.natAbs
        if product.isInf then none else some product
      else some (value / tenToThe power.natAbs)
    else if value == 0 then some value
    else if 0 ≤ power then none
    else scale? steps (value / tenToThe 308) (power + 308)

/-- The largest exponent that is taken as it stands. -/
def exponentLimit : Nat := 2147483647

/-- The double that the numeral stands for: the leading digits that fit into a word, rounded to a
double, times one power of ten.  Nothing where the result is beyond the range. -/
def double? (n : Numeral) : Option Float :=
  let (significand, skipped) := absorb 0 n.whole
  let (significand, dropped) := absorb significand n.fraction
  let power : Int := skipped.length - (n.fraction.length - dropped.length : Nat)
  let signed (value : Float) : Float := if n.negative then -value else value
  match n.exponent with
  | none =>
    if skipped = [] ∧ n.fraction = [] then some (signed (natToFloat significand))
    else (scale? 4 (natToFloat significand) power).map signed
  | some (isNegative, size) =>
    if exponentLimit < size then
      if significand ≠ 0 ∧ ¬ isNegative then none else some (signed 0)
    else
      let power := if isNegative then power - size else power + size
      (scale? 4 (natToFloat significand) power).map signed

end Numeral

/-! ## The reader -/

/-- JSON knows four blank characters. -/
def isSpace (c : Char) : Bool := c == ' ' || c == '\n' || c == '\t' || c == '\r'

/-- The text behind the blanks in front. -/
def skipSpace (text : List Char) : List Char := text.dropWhile isSpace

/-- The digits in front, and the rest. -/
def spanDigits (text : List Char) : List Nat × List Char :=
  let digits := text.takeWhile (fun c => (digitValue? c).isSome)
  (digits.filterMap digitValue?, text.drop digits.length)

/-- A point with at least one digit behind it, or nothing. -/
def readFraction : List Char → Option (List Nat × List Char)
  | '.' :: text =>
    match spanDigits text with
    | ([], _) => none
    | found => some found
  | text => some ([], text)

/-- A letter `e`, an optional sign and at least one digit, or nothing. -/
def readExponent : List Char → Option (Option (Bool × Nat) × List Char)
  | [] => some (none, [])
  | c :: text =>
    if c = 'e' ∨ c = 'E' then
      let (isNegative, text) := match text with
        | '-' :: text => (true, text)
        | '+' :: text => (false, text)
        | text => (false, text)
      match spanDigits text with
      | ([], _) => none
      | (digits, rest) => some (some (isNegative, Numeral.digitsValue digits), rest)
    else some (none, c :: text)

/-- A number: no superfluous zero in front. -/
def readNumber (isNegative : Bool) (text : List Char) : Option (Numeral × List Char) :=
  match spanDigits text with
  | ([], _) => none
  | (0 :: _ :: _, _) => none
  | (whole, rest) => do
    let (fraction, rest) ← readFraction rest
    let (exponent, rest) ← readExponent rest
    return (⟨isNegative, whole, fraction, exponent⟩, rest)

/-- The value of a hexadecimal digit. -/
def hexValue? (c : Char) : Option Nat :=
  if '0' ≤ c ∧ c ≤ '9' then some (c.toNat - 48)
  else if 'a' ≤ c ∧ c ≤ 'f' then some (c.toNat - 87)
  else if 'A' ≤ c ∧ c ≤ 'F' then some (c.toNat - 55)
  else none

/-- A unit of a string: a character, or one half of a surrogate pair. -/
inductive Unit16 where
  | whole (c : Char)
  | leading (bits : Nat)
  | trailing (bits : Nat)

/-- What four hexadecimal digits name. -/
def Unit16.of (code : Nat) : Unit16 :=
  if 0xD800 ≤ code ∧ code < 0xDC00 then .leading (code - 0xD800)
  else if 0xDC00 ≤ code ∧ code < 0xE000 then .trailing (code - 0xDC00)
  else .whole (Char.ofNat code)

/-- The text of a row of units, where every leading half is followed by a trailing one. -/
def joinUnits : List Unit16 → Option (List Char)
  | [] => some []
  | .whole c :: rest => (joinUnits rest).map (c :: ·)
  | .leading high :: .trailing low :: rest =>
    (joinUnits rest).map (Char.ofNat (0x10000 + 0x400 * high + low) :: ·)
  | _ => none

/-- The character that a one-letter escape names. -/
def escaped? : Char → Option Char
  | '"' => some '"'
  | '\\' => some '\\'
  | '/' => some '/'
  | 'b' => some '\x08'
  | 'f' => some '\x0c'
  | 'n' => some '\n'
  | 'r' => some '\r'
  | 't' => some '\t'
  | _ => none

/-- The units up to the closing quote, and what follows it. -/
def readUnits : List Char → Option (List Unit16 × List Char)
  | [] => none
  | '"' :: rest => some ([], rest)
  | '\\' :: 'u' :: a :: b :: c :: d :: rest => do
    let code := 4096 * (← hexValue? a) + 256 * (← hexValue? b) + 16 * (← hexValue? c)
      + (← hexValue? d)
    let (units, rest) ← readUnits rest
    return (Unit16.of code :: units, rest)
  | '\\' :: letter :: rest => do
    let c ← escaped? letter
    let (units, rest) ← readUnits rest
    return (.whole c :: units, rest)
  | c :: rest =>
    if c.toNat < 32 ∨ c = '\\' then none
    else (readUnits rest).map fun (units, rest) => (.whole c :: units, rest)

/-- A string behind its opening quote. -/
def readString (text : List Char) : Option (Option String × List Char) :=
  (readUnits text).map fun (units, rest) => ((joinUnits units).map String.ofList, rest)

mutual

/-- One value, blanks in front of it allowed.  The fuel bounds the number of values and commas. -/
def readValue : Nat → List Char → Option (Raw × List Char)
  | 0, _ => none
  | fuel + 1, text =>
    match skipSpace text with
    | 'n' :: 'u' :: 'l' :: 'l' :: rest => some (.null, rest)
    | 't' :: 'r' :: 'u' :: 'e' :: rest => some (.bool true, rest)
    | 'f' :: 'a' :: 'l' :: 's' :: 'e' :: rest => some (.bool false, rest)
    | '"' :: rest => (readString rest).map fun (content, rest) => (.text content, rest)
    | '-' :: rest => (readNumber true rest).map fun (n, rest) => (.number n, rest)
    | '[' :: rest =>
      match skipSpace rest with
      | ']' :: rest => some (.list [], rest)
      | rest => (readItems fuel rest).map fun (items, rest) => (.list items, rest)
    | '\x7b' :: rest =>
      match skipSpace rest with
      | '\x7d' :: rest => some (.record [], rest)
      | rest => (readEntries fuel rest).map fun (entries, rest) => (.record entries, rest)
    | rest => (readNumber false rest).map fun (n, rest) => (.number n, rest)

/-- The items of a list up to the closing bracket; there is at least one. -/
def readItems : Nat → List Char → Option (List Raw × List Char)
  | 0, _ => none
  | fuel + 1, text =>
    match readValue fuel text with
    | none => none
    | some (item, rest) =>
      match skipSpace rest with
      | ']' :: rest => some ([item], rest)
      | ',' :: rest => (readItems fuel rest).map fun (items, rest) => (item :: items, rest)
      | _ => none

/-- The entries of a record up to the closing brace; there is at least one. -/
def readEntries : Nat → List Char → Option (List (Option String × Raw) × List Char)
  | 0, _ => none
  | fuel + 1, text =>
    match skipSpace text with
    | '"' :: rest =>
      match readString rest with
      | none => none
      | some (name, rest) =>
        match skipSpace rest with
        | ':' :: rest =>
          match readValue fuel rest with
          | none => none
          | some (value, rest) =>
            match skipSpace rest with
            | '\x7d' :: rest => some ([(name, value)], rest)
            | ',' :: rest =>
              (readEntries fuel rest).map fun (entries, rest) => ((name, value) :: entries, rest)
            | _ => none
        | _ => none
    | _ => none

end

/-- The one value of a text. -/
def Raw.parse? (text : String) : Option Raw :=
  let chars := text.toList
  match readValue (chars.length + 1) chars with
  | some (value, rest) => if skipSpace rest = [] then some value else none
  | none => none

end PackedGraph.Json
