import PackedGraph.Fault
import PackedGraph.Numeric.Rounding

/-!
# Bytes: bounds, budgets and accounts

`MemoryRange` is a lower and an upper bound for the bytes of a task.  Bounds are unsigned words: sums
and products stop at the largest word.  `ensureFits` admits a task whose upper bound is available,
`reserve` asks for a block of memory, and `Account` keeps track of what has been allocated.
-/

namespace PackedGraph

/-- The largest number of bytes that can be named. -/
def byteLimit : Nat := 18446744073709551615

/-- A lower and an upper bound. -/
structure MemoryRange where
  /-- At least this many bytes. -/
  min : Nat
  /-- At most this many bytes. -/
  max : Nat
  deriving Repr, DecidableEq, Inhabited

/-! ## Byte counts in words -/

/-- The units of byte counts, each `1024` times the one before. -/
def byteUnits : List String := ["Bytes", "KiB", "MiB", "GiB", "TiB", "PiB"]

/-- A count as a double holds it: the 53 leading bits, rounded. -/
def roundToDouble (n : Nat) : Nat :=
  let step := Nat.pow 2 (n.log2 - 52)
  if n < 9007199254740992 then n else roundHalfEven n step * step

/-- A number of hundredths with its point. -/
def writeHundredths (hundredths : Nat) : String :=
  let cents := hundredths % 100
  toString (hundredths / 100) ++ "." ++ (if cents < 10 then "0" else "") ++ toString cents

/-- A count in the first of the units in which it is below `1024`, or else in the last of them; two
digits behind the point, a half going to the even digit. -/
def writeScaled (value scale : Nat) : List String → String
  | [] => ""
  | [last] => writeHundredths (roundHalfEven (value * 100) scale) ++ " " ++ last
  | unit :: larger =>
    if value < 1024 * scale then writeHundredths (roundHalfEven (value * 100) scale) ++ " " ++ unit
    else writeScaled value (1024 * scale) larger

/-- A byte count with a unit. -/
def writeBytes (bytes : Nat) : String :=
  let value := roundToDouble bytes
  if value < 1024 then toString bytes ++ " " ++ byteUnits.headD ""
  else writeScaled value 1024 (byteUnits.drop 1)

namespace MemoryRange

/-- Both bounds are the same. -/
def of (bytes : Nat) : MemoryRange := ⟨bytes, bytes⟩

/-- Nothing. -/
def none : MemoryRange := of 0

/-- The bounds of two tasks together. -/
def plus (a b : MemoryRange) : MemoryRange :=
  ⟨Nat.min (a.min + b.min) byteLimit, Nat.min (a.max + b.max) byteLimit⟩

/-- The bounds of a task that is done several times at once. -/
def times (a : MemoryRange) (factor : Nat) : MemoryRange :=
  ⟨Nat.min (a.min * factor) byteLimit, Nat.min (a.max * factor) byteLimit⟩

instance : Add MemoryRange := ⟨plus⟩

/-- One count where the bounds agree, else both. -/
def text (a : MemoryRange) : String :=
  if a.min = a.max then writeBytes a.min
  else "[" ++ writeBytes a.min ++ " ... " ++ writeBytes a.max ++ "]"

end MemoryRange

/-- Admit a task if its worst case is available. -/
def ensureFits (task : String) (estimate : MemoryRange) (available : Nat) : Except Fault Unit :=
  if available < estimate.max then .error (.overBudget task estimate.max available) else .ok ()

/-- No block of memory has more bytes. -/
def largestBlock : Nat := 9223372036854775807

/-- Ask for a block with room for so many entries of so many bytes each. -/
def reserve (entries width : Nat) : Except Fault Unit :=
  if entries * width ≤ largestBlock then .ok () else .error .noRoom

/-- Bytes that are allocated at present. -/
structure Account where
  /-- The balance. -/
  tracked : UInt64 := 0
  deriving Repr, DecidableEq, Inhabited

namespace Account

/-- More bytes are allocated. -/
def add (a : Account) (bytes : Nat) : Account := ⟨a.tracked + UInt64.ofNat bytes⟩

/-- Bytes are given back; never more than there are. -/
def remove (a : Account) (bytes : Nat) : Account := ⟨UInt64.ofNat (a.tracked.toNat - bytes)⟩

end Account

/-- The size of a graph, as far as estimates go. -/
structure Dimensions where
  /-- Nodes. -/
  nodes : Nat
  /-- Stored relationships. -/
  relationships : Nat
  deriving Repr, DecidableEq, Inhabited

end PackedGraph
