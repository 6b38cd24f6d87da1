/-!
# Variable-length words

A word is written in base 128, least significant digit first, one byte a digit; the last byte of a
word has its high bit set and no other byte has.  Small words take few bytes, so ascending sequences
are written as their gaps (`PackedGraph.Codec.Gaps`).

Main definitions: `encode` and `decode` for one word, `encodedSize` for its length in bytes, and
`zigzag` with its inverse `unzigzag`, which send signed words of small magnitude to small words.
-/

namespace PackedGraph.Varint

/-- A place in a sequence that holds no word: encoders pass over it. -/
def absent : UInt64 := 18446744073709551615

/-- The most bytes that a word takes. -/
def maxEncodedSize : Nat := 10

/-! ## Signed words -/

/-- Signed words in the order 0, -1, 1, -2, 2, … -/
def zigzag (value : Int64) : UInt64 :=
  let v := value.toInt
  UInt64.ofNat (if 0 ≤ v then 2 * v.toNat else 2 * (-v).toNat - 1)

/-- The signed word at a place of that order. -/
def unzigzag (word : UInt64) : Int64 :=
  let half := word.toNat / 2
  Int64.ofInt (if word.toNat % 2 = 0 then half else -(half : Int) - 1)

/-! ## One word -/

/-- The bytes of a number. -/
def chunks (n : Nat) : List UInt8 :=
  if _h : n < 128 then [UInt8.ofNat (n + 128)] else UInt8.ofNat (n % 128) :: chunks (n / 128)
termination_by n
decreasing_by exact Nat.div_lt_self (by omega) (by decide)

/-- How many bytes a word takes: one for every seven of its significant bits. -/
def encodedSize (value : UInt64) : Nat :=
  if value.toNat = 0 then 1 else (value.toNat.log2 + 1 + 6) / 7

/-- Append the bytes of a word. -/
def encode (out : Array UInt8) (value : UInt64) : Array UInt8 :=
  (chunks value.toNat).foldl Array.push out

/-- Append the bytes of a word; how many there are, and all bytes. -/
def write (out : Array UInt8) (value : UInt64) : Nat × Array UInt8 :=
  let longer := encode out value
  (longer.size - out.size, longer)

/-- Add up the digits from a position on, the first one counting `scale`; the sum and the position
behind the last byte, or nothing where the bytes end before the last digit. -/
def decodeFrom (bytes : Array UInt8) (scale value pos : Nat) : Option (Nat × Nat) :=
  if _h : pos < bytes.size then
    let byte := bytes[pos].toNat
    let value := value + byte % 128 * scale
    if 128 ≤ byte then some (value, pos + 1) else decodeFrom bytes (128 * scale) value (pos + 1)
  else none
termination_by bytes.size - pos

/-- The word at a position, modulo `2 ^ 64`, and the position behind it. -/
def decode (bytes : Array UInt8) (pos : Nat) : Option (UInt64 × Nat) :=
  (decodeFrom bytes 1 0 pos).map fun (value, next) => (UInt64.ofNat value, next)

end PackedGraph.Varint
