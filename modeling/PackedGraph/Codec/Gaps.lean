import PackedGraph.Codec.Varint

/-!
# Sequences of words and their gaps

Sequences are written word by word, places that hold no word being passed over.  An ascending sequence
is first replaced by its gaps: the first word stays and every other becomes its distance from the one
before.  Decoding gaps adds them up from a base, so a sequence may be decoded in windows, each based
on the last word of the window before.  Signed sequences need no order: their differences are taken
modulo `2 ^ 64` and zigzagged.
-/

namespace PackedGraph.Varint

/-! ## Words -/

/-- How many bytes a sequence takes. -/
def encodedSizeOf (values : List UInt64) : Nat :=
  values.foldl (fun total value => if value = absent then total else total + encodedSize value) 0

/-- Append the words of a sequence. -/
def encodeValues (out : Array UInt8) (values : List UInt64) : Array UInt8 :=
  values.foldl (fun out value => if value = absent then out else encode out value) out

/-- Append the words of a sequence; how many bytes they take, and all bytes. -/
def writeValues (out : Array UInt8) (values : List UInt64) : Nat × Array UInt8 :=
  let longer := encodeValues out values
  (longer.size - out.size, longer)

/-- Append so many words from a position on to those found so far; the words and the position behind
them, or nothing where the bytes end too early. -/
def decodeValuesFrom (bytes : Array UInt8) (found : Array UInt64) :
    Nat → Nat → Option (Array UInt64 × Nat)
  | 0, pos => some (found, pos)
  | count + 1, pos =>
    match decode bytes pos with
    | none => none
    | some (value, next) => decodeValuesFrom bytes (found.push value) count next

/-- So many words from a position on, and the position behind them. -/
def decodeValues (bytes : Array UInt8) (pos count : Nat) : Option (List UInt64 × Nat) :=
  (decodeValuesFrom bytes #[] count pos).map fun (found, next) => (found.toList, next)

/-! ## Gaps -/

/-- Append the gaps of a sequence, the first one counted from `previous`. -/
def gapsFrom (found : Array UInt64) (previous : UInt64) : List UInt64 → Array UInt64
  | [] => found
  | value :: rest =>
    if value = absent then gapsFrom (found.push value) previous rest
    else gapsFrom (found.push (value - previous)) value rest

/-- The gaps of an ascending sequence.  A place that holds no word stays one. -/
def gaps (values : List UInt64) : List UInt64 := (gapsFrom #[] 0 values).toList

/-- How many places of a sequence hold a word. -/
def keptCount (values : List UInt64) : Nat := values.countP (· != absent)

/-- Append so many sums of gaps to those found so far, as `decodeValuesFrom` does for words. -/
def decodeGapsFrom (bytes : Array UInt8) (found : Array UInt64) (base : UInt64) :
    Nat → Nat → Option (Array UInt64 × Nat)
  | 0, pos => some (found, pos)
  | count + 1, pos =>
    match decode bytes pos with
    | none => none
    | some (gap, next) => decodeGapsFrom bytes (found.push (base + gap)) (base + gap) count next

/-- The words whose gaps are written from a position on, so many of them, the first gap counted from a
base; and the position behind them. -/
def decodeGaps (bytes : Array UInt8) (pos : Nat) (base : UInt64) (count : Nat) :
    Option (List UInt64 × Nat) :=
  (decodeGapsFrom bytes #[] base count pos).map fun (found, next) => (found.toList, next)

/-! ## Signed differences -/

/-- Append the zigzagged differences of a sequence, the first one taken from `previous`. -/
def encodeSignedFrom (out : Array UInt8) (previous : Int64) : List Int64 → Array UInt8
  | [] => out
  | value :: rest => encodeSignedFrom (encode out (zigzag (value - previous))) value rest

/-- Append the zigzagged differences of a sequence. -/
def encodeSigned (out : Array UInt8) (values : List Int64) : Array UInt8 :=
  encodeSignedFrom out 0 values

/-- Append the zigzagged differences of a sequence; how many bytes they take, and all bytes. -/
def writeSigned (out : Array UInt8) (values : List Int64) : Nat × Array UInt8 :=
  let longer := encodeSigned out values
  (longer.size - out.size, longer)

/-- Append so many signed words to those found so far. -/
def decodeSignedFrom (bytes : Array UInt8) (found : Array Int64) (previous : Int64) :
    Nat → Nat → Option (Array Int64 × Nat)
  | 0, pos => some (found, pos)
  | count + 1, pos =>
    match decode bytes pos with
    | none => none
    | some (word, next) =>
      let value := previous + unzigzag word
      decodeSignedFrom bytes (found.push value) value count next

/-- So many signed words from a position on, and the position behind them. -/
def decodeSigned (bytes : Array UInt8) (pos count : Nat) : Option (List Int64 × Nat) :=
  (decodeSignedFrom bytes #[] 0 count pos).map fun (found, next) => (found.toList, next)

end PackedGraph.Varint
