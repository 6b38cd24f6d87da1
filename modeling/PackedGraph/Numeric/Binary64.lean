import PackedGraph.Numeric.Rounding

/-!
# Binary64 data as bit patterns

A `Binary64` is an IEEE 754 double kept as its 64 bits.  Unlike `Float` it tells apart the NaNs, so it
is what an array of stored scores holds and what the total order of data is read from.

Main definitions: `Binary64.totalOrderKey` orders all bit patterns, `Binary64.ofRatio` is correct
rounding of a fraction, and `Binary64.significand` and `Binary64.exponent` take a finite datum apart.
-/

namespace PackedGraph

/-- An IEEE 754 double, as its bits. -/
structure Binary64 where
  /-- Sign, exponent field and fraction, most significant bit first. -/
  bits : UInt64
  deriving DecidableEq, Inhabited, Repr

namespace Binary64

/-- The weight of the sign bit. -/
def signWeight : Nat := 9223372036854775808

/-- The weight of the lowest bit of the exponent field. -/
def exponentWeight : Nat := 4503599627370496

/-- The bits of positive infinity. -/
def infinityBits : Nat := 9218868437227405312

/-- The datum of a number. -/
def ofFloat (x : Float) : Binary64 := ⟨x.toBits⟩

/-- The number that the bits stand for. -/
def toFloat (b : Binary64) : Float := Float.ofBits b.bits

/-- Positive zero. -/
def zero : Binary64 := ⟨0⟩

/-- The bits without the sign. -/
def magnitude (b : Binary64) : Nat := b.bits.toNat % signWeight

/-- Whether the sign bit is set, for zeros and NaNs too. -/
def negative (b : Binary64) : Bool := decide (signWeight ≤ b.bits.toNat)

/-- Whether the datum is neither infinite nor a NaN. -/
def finite (b : Binary64) : Bool := decide (b.magnitude < infinityBits)

/-- Whether the datum is no number. -/
def nan (b : Binary64) : Bool := decide (infinityBits < b.magnitude)

/-- The place of a datum in the total order of bit patterns: negative NaNs, negative numbers from
minus infinity upwards, `-0.0`, `0.0`, positive numbers, positive NaNs. -/
def totalOrderKey (b : Binary64) : Int :=
  if b.negative then -1 - (b.magnitude : Int) else b.magnitude

/-- A finite datum is `significand * 2 ^ exponent`, up to its sign. -/
def significand (b : Binary64) : Nat :=
  let fraction := b.magnitude % exponentWeight
  if b.magnitude < exponentWeight then fraction else fraction + exponentWeight

/-- A finite datum is `significand * 2 ^ exponent`, up to its sign. -/
def exponent (b : Binary64) : Int :=
  if b.magnitude < exponentWeight then -1074
  else (b.magnitude / exponentWeight : Nat) - 1075

/-- Put a sign in front of the bits of a magnitude. -/
def ofMagnitude (isNegative : Bool) (bits : Nat) : Binary64 :=
  ⟨UInt64.ofNat (if isNegative then bits + signWeight else bits)⟩

/-- The datum nearest to the fraction `num / den`, half way the one with an even significand; a value
beyond the largest finite datum goes to infinity.

The significand is taken on the grid of step `2 ^ q` on which it has 53 bits, or on the finest grid
when the fraction is smaller; a carry out of it runs into the exponent field, as it should. -/
def ofRatio (isNegative : Bool) (num den : Nat) : Binary64 :=
  if num = 0 then ofMagnitude isNegative 0
  else
    let guess : Int := (num.log2 : Int) - den.log2 - 52
    let onGrid (q : Int) : Nat × Nat :=
      if 0 ≤ q then (num, den * Nat.pow 2 q.toNat) else (num * Nat.pow 2 (-q).toNat, den)
    let (top, bottom) := onGrid guess
    let q := max (if top / bottom < exponentWeight then guess - 1 else guess) (-1074)
    let (top, bottom) := onGrid q
    let bits := (q + 1074).toNat * exponentWeight + roundHalfEven top bottom
    ofMagnitude isNegative (min bits infinityBits)

end Binary64

/-- The double nearest to a word, which a natural number becomes by its low 64 bits. -/
def natToFloat (n : Nat) : Float := (UInt64.ofNat n).toFloat

/-- The smaller of two numbers; a NaN gives way to a number, and of two equal ones the first stays. -/
def floatMin (a b : Float) : Float := if a.isNaN then b else if b < a then b else a

/-- The larger of two numbers; a NaN gives way to a number, and of two equal ones the first stays. -/
def floatMax (a b : Float) : Float := if a.isNaN then b else if a < b then b else a

/-- The sum of numbers in order.  Negative zero is neutral: nothing sums up to it. -/
def floatSum (xs : List Float) : Float := xs.foldl (· + ·) (-0.0)

/-- The sum of numbers divided by their count; zero where there are none. -/
def floatMean (xs : List Float) : Float :=
  if xs.isEmpty then 0 else floatSum xs / natToFloat xs.length

end PackedGraph
