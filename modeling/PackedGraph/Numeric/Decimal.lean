import PackedGraph.Numeric.Binary64

/-!
# Decimal numerals

Reading decimal text as a word or as a double, and writing a double with the fewest digits that read
back.

* `parseWord` reads an unsigned 64-bit word and says why it refuses.
* `parseDouble` reads a double: optional sign, then `inf`, `infinity`, `nan` in any case, or digits
  with at most one point and an optional exponent.  The value is rounded correctly.
* `shortest` finds the decimal with the fewest digits inside the interval of reals that round to a
  datum, and of these the nearest; `NumberLayout.write` sets it out.
-/

namespace PackedGraph

/-- The value of a decimal digit. -/
def digitValue? (c : Char) : Option Nat :=
  if '0' ≤ c ∧ c ≤ '9' then some (c.toNat - 48) else none

/-- Why a text is no unsigned word. -/
inductive WordError where
  /-- A character other than a digit, or a sign alone. -/
  | invalidDigit
  /-- The value does not fit into 64 bits. -/
  | tooLarge
  /-- There is no text. -/
  | empty
  deriving Repr, DecidableEq

/-- The reason as a user reads it. -/
def WordError.message : WordError → String
  | invalidDigit => "invalid digit found in string"
  | tooLarge => "number too large to fit in target type"
  | empty => "cannot parse integer from empty string"

/-- Values of words lie below this bound. -/
def wordBound : Nat := 18446744073709551616

/-- Digits from the left, refused at the first that is none or that leaves the range. -/
def parseWordDigits (value : Nat) : List Char → Except WordError Nat
  | [] => .ok value
  | c :: rest =>
    match digitValue? c with
    | none => .error .invalidDigit
    | some d =>
      let next := 10 * value + d
      if next < wordBound then parseWordDigits next rest else .error .tooLarge

/-- An optional plus sign and at least one digit, of a value below `2 ^ 64`. -/
def parseWord (text : String) : Except WordError UInt64 :=
  match text.toList with
  | [] => .error .empty
  | ['+'] => .error .invalidDigit
  | '+' :: digits => (parseWordDigits 0 digits).map UInt64.ofNat
  | digits => (parseWordDigits 0 digits).map UInt64.ofNat

/-- The digits in front of the first character that is none, as a number continued from `value`, how
many there are, and the rest. -/
def takeDigits (value count : Nat) : List Char → Nat × Nat × List Char
  | [] => (value, count, [])
  | c :: rest =>
    match digitValue? c with
    | none => (value, count, c :: rest)
    | some d => takeDigits (10 * value + d) (count + 1) rest

/-- How many decimal digits a number has. -/
def digitCount (n : Nat) : Nat := (Nat.toDigits 10 n).length

/-- The datum nearest to `m * 10 ^ e`.  Values far beyond the range of doubles are settled by their
size, so that no power of an absurd exponent is formed. -/
def decimalToBinary64 (isNegative : Bool) (m : Nat) (e : Int) : Binary64 :=
  let size := e + digitCount m
  if m = 0 ∨ size ≤ -324 then .ofMagnitude isNegative 0
  else if 310 ≤ size then .ofMagnitude isNegative Binary64.infinityBits
  else if 0 ≤ e then .ofRatio isNegative (m * Nat.pow 10 e.toNat) 1
  else .ofRatio isNegative m (Nat.pow 10 (-e).toNat)

/-- An exponent that has reached this bound takes in no more digits. -/
def exponentBound : Nat := 65536

/-- One more digit of an exponent. -/
def exponentDigit (value digit : Nat) : Nat :=
  if value < exponentBound then 10 * value + digit else value

/-- The exponent part of a numeral: nothing, or a letter `e`, an optional sign and digits. -/
def parseExponent? : List Char → Option Int
  | [] => some 0
  | c :: rest =>
    if c = 'e' ∨ c = 'E' then
      let (isNegative, digits) := match rest with
        | '-' :: digits => (true, digits)
        | '+' :: digits => (false, digits)
        | digits => (false, digits)
      if digits.isEmpty then none
      else (digits.mapM digitValue?).map fun digits =>
        let value : Nat := digits.foldl exponentDigit 0
        if isNegative then -(value : Int) else value
    else none

/-- A numeral without sign: digits, at most one point, at least one digit on either side of it. -/
def parseMagnitude? (isNegative : Bool) (text : List Char) : Option Binary64 :=
  let (whole, wholeCount, rest) := takeDigits 0 0 text
  let (value, count, places, rest) := match rest with
    | '.' :: fraction =>
      let (value, places, rest) := takeDigits whole 0 fraction
      (value, wholeCount + places, places, rest)
    | rest => (whole, wholeCount, 0, rest)
  if count = 0 then none
  else (parseExponent? rest).map fun e => decimalToBinary64 isNegative value (e - places)

/-- Lower-case letters for the capitals of the English alphabet. -/
def lowerCase (text : List Char) : List Char := text.map Char.toLower

/-- A double from its decimal text, or nothing where the text is no numeral. -/
def parseDouble? (text : String) : Option Binary64 :=
  let (isNegative, body) := match text.toList with
    | '-' :: body => (true, body)
    | '+' :: body => (false, body)
    | body => (false, body)
  match lowerCase body with
  | ['i', 'n', 'f'] => some (.ofMagnitude isNegative Binary64.infinityBits)
  | ['i', 'n', 'f', 'i', 'n', 'i', 't', 'y'] =>
    some (.ofMagnitude isNegative Binary64.infinityBits)
  | ['n', 'a', 'n'] =>
    some (.ofMagnitude isNegative (Binary64.infinityBits + Binary64.exponentWeight / 2))
  | _ => parseMagnitude? isNegative body

/-! ## The fewest digits that read back -/

/-- Which of two neighbours on a grid a number goes to that lies half way between them. -/
inductive Tie where
  /-- To the even one. -/
  | toEven
  /-- To the larger one. -/
  | up
  deriving Repr, DecidableEq, Inhabited

/-- The neighbour that a tie between `below` and the next number goes to. -/
def Tie.settle (tie : Tie) (below : Nat) : Nat :=
  match tie with
  | toEven => below + below % 2
  | up => below + 1

/-- The number `digits * 10 ^ exponent`. -/
structure DecimalNumber where
  /-- All digits, as one number. -/
  digits : Nat
  /-- The power of ten of the last digit. -/
  exponent : Int
  deriving Repr, DecidableEq, Inhabited

/-- Zeros at the end of the digits move into the exponent. -/
def DecimalNumber.trim (d : DecimalNumber) : DecimalNumber :=
  if _h : 0 < d.digits ∧ d.digits % 10 = 0 then
    DecimalNumber.trim ⟨d.digits / 10, d.exponent + 1⟩
  else d
termination_by d.digits
decreasing_by exact Nat.div_lt_self _h.1 (by decide)

/-- The reals that round to a finite positive datum, in quarters of the step of its grid. -/
structure RoundingInterval where
  /-- The lower end. -/
  low : Nat
  /-- The datum. -/
  middle : Nat
  /-- The upper end. -/
  high : Nat
  /-- Whether the ends round to the datum as well. -/
  closed : Bool
  /-- One quarter step is `num / den`. -/
  num : Nat
  /-- One quarter step is `num / den`. -/
  den : Nat

/-- The interval of a finite positive datum.  Just above a power of two the grid below is twice as
fine, so the lower half of the interval is half as long. -/
def RoundingInterval.of (b : Binary64) : RoundingInterval :=
  let m := b.significand
  let q := b.exponent - 2
  let fineBelow := m = Binary64.exponentWeight ∧ Binary64.exponentWeight < b.magnitude
  { low := if fineBelow then 4 * m - 1 else 4 * m - 2
    middle := 4 * m
    high := 4 * m + 2
    closed := decide (m % 2 = 0)
    num := if 0 ≤ q then Nat.pow 2 q.toNat else 1
    den := if 0 ≤ q then 1 else Nat.pow 2 (-q).toNat }

namespace RoundingInterval

/-- The quotient of `t * 10 ^ e` by a quarter step, as a fraction. -/
def quarters (i : RoundingInterval) (t : Nat) (e : Int) : Nat × Nat :=
  if 0 ≤ e then (t * Nat.pow 10 e.toNat * i.den, i.num) else (t * i.den, i.num * Nat.pow 10 (-e).toNat)

/-- Whether `t * 10 ^ e` rounds to the datum. -/
def contains (i : RoundingInterval) (t : Nat) (e : Int) : Bool :=
  let (top, bottom) := i.quarters t e
  if i.closed then decide (i.low * bottom ≤ top ∧ top ≤ i.high * bottom)
  else decide (i.low * bottom < top ∧ top < i.high * bottom)

/-- The largest point of the grid `10 ^ e` that is not above the datum. -/
def floorAt (i : RoundingInterval) (e : Int) : Nat :=
  let (top, bottom) := i.quarters 1 e
  i.middle * bottom / top

/-- The datum's neighbour on the grid `10 ^ e` that rounds to it, the nearer one if both do. -/
def onGrid? (i : RoundingInterval) (tie : Tie) (e : Int) : Option DecimalNumber :=
  let t := i.floorAt e
  match i.contains t e, i.contains (t + 1) e with
  | false, false => none
  | true, false => some ⟨t, e⟩
  | false, true => some ⟨t + 1, e⟩
  | true, true =>
    let (low, bottom) := i.quarters t e
    let (high, _) := i.quarters (t + 1) e
    let below := i.middle * bottom - low
    let above := high - i.middle * bottom
    some ⟨if below < above then t else if above < below then t + 1 else tie.settle t, e⟩

/-- The power of ten of the datum's first digit. -/
def leading (i : RoundingInterval) : Int :=
  (digitCount (i.middle * i.num * Nat.pow 10 400 / i.den) : Int) - 401

end RoundingInterval

/-- The decimal with the fewest digits that rounds to a finite positive datum, and of these the
nearest; between two that are equally near the tie decides.  Seventeen digits are always enough. -/
def shortest (tie : Tie) (b : Binary64) : DecimalNumber :=
  let interval := RoundingInterval.of b
  let leading := interval.leading
  match (List.range 17).findSome? fun (n : Nat) => interval.onGrid? tie (leading - (n : Int)) with
  | some d => d.trim
  | none => ⟨0, 0⟩

/-- How a number is set out. -/
structure NumberLayout where
  /-- Which of two equally near decimals with the fewest digits is written. -/
  tie : Tie
  /-- Numbers whose point stands further left are written with an exponent. -/
  lowestPoint : Option Int
  /-- Numbers whose point stands further right are written with an exponent. -/
  highestPoint : Option Int
  /-- What follows a whole number. -/
  wholeMark : String
  /-- The text of a NaN. -/
  nanText : String
  /-- The text of infinity. -/
  infinityText : String

namespace NumberLayout

/-- Digits with a point after the first `point` of them, or in front of zeros before the first. -/
def positional (layout : NumberLayout) (digits : List Char) (point : Int) : String :=
  if point ≤ 0 then "0." ++ String.ofList (List.replicate (-point).toNat '0' ++ digits)
  else if point.toNat < digits.length then
    String.ofList (digits.take point.toNat ++ '.' :: digits.drop point.toNat)
  else
    String.ofList (digits ++ List.replicate (point.toNat - digits.length) '0') ++ layout.wholeMark

/-- One digit, the point and the others if there are others, and the power of ten of the first. -/
def scientific (digits : List Char) (point : Int) : String :=
  let mantissa := match digits with
    | first :: second :: rest => first :: '.' :: second :: rest
    | few => few
  String.ofList mantissa ++ "e" ++ toString (point - 1)

/-- A decimal number in this layout. -/
def writeDecimal (layout : NumberLayout) (d : DecimalNumber) : String :=
  let digits := Nat.toDigits 10 d.digits
  let point := digits.length + d.exponent
  if layout.lowestPoint.all (· ≤ point) ∧ layout.highestPoint.all (point ≤ ·) then
    layout.positional digits point
  else scientific digits point

/-- A datum in this layout, with the fewest digits that read back. -/
def write (layout : NumberLayout) (b : Binary64) : String :=
  if b.nan then layout.nanText
  else
    let body :=
      if ¬ b.finite then layout.infinityText
      else if b.magnitude = 0 then "0" ++ layout.wholeMark
      else layout.writeDecimal (shortest layout.tie b)
    if b.negative then "-" ++ body else body

end NumberLayout

end PackedGraph
