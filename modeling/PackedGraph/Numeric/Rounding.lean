/-!
# Rounding a quotient

A quotient of natural numbers goes to the nearest integer, and one that lies half way goes to the even
neighbour.
-/

namespace PackedGraph

/-- The integer nearest to `num / den`; half way between two of them, the even one. -/
def roundHalfEven (num den : Nat) : Nat :=
  let whole := num / den
  let rest := num % den
  if 2 * rest < den then whole
  else if den < 2 * rest then whole + 1
  else whole + whole % 2

/-- How many times `step` fits into `total` when a last, shorter piece counts as a whole one. -/
def ceilDiv (total step : Nat) : Nat := (total + step - 1) / step

end PackedGraph
