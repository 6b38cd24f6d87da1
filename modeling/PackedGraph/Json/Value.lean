import PackedGraph.Numeric.Decimal

/-!
# Writing JSON text

A value is set out over several lines, indented by two spaces a level, with the names of a record in
ascending order.  Numbers have the fewest digits that read back; what is no number becomes `null`.
-/

namespace PackedGraph.Json

/-- A JSON value to be written. -/
inductive Value where
  | null
  | bool (value : Bool)
  | nat (value : Nat)
  | float (value : Binary64)
  | text (content : String)
  | list (items : List Value)
  | record (entries : List (String × Value))
  deriving Inhabited

/-- Numbers keep a point, and from `1e16` upwards and below `1e-5` they have an exponent.  A tie goes to
the even last digit. -/
def numberLayout : NumberLayout :=
  { tie := .toEven
    lowestPoint := some (-4)
    highestPoint := some 16
    wholeMark := ".0"
    nanText := "null"
    infinityText := "null" }

/-- A hexadecimal digit. -/
def hexDigit (n : Nat) : Char := if n < 10 then Char.ofNat (48 + n) else Char.ofNat (87 + n)

/-- A character inside a string: quotes, backslashes and control characters are escaped. -/
def escape (c : Char) : List Char :=
  match c with
  | '"' => ['\\', '"']
  | '\\' => ['\\', '\\']
  | '\x08' => ['\\', 'b']
  | '\x0c' => ['\\', 'f']
  | '\n' => ['\\', 'n']
  | '\r' => ['\\', 'r']
  | '\t' => ['\\', 't']
  | c =>
    if c.toNat < 32 then ['\\', 'u', '0', '0', hexDigit (c.toNat / 16), hexDigit (c.toNat % 16)]
    else [c]

/-- A string between its quotes. -/
def quote (text : String) : String := "\"" ++ String.ofList (text.toList.flatMap escape) ++ "\""

/-- A line break and the indentation of a level. -/
def newline (level : Nat) : String := "\n" ++ String.ofList (List.replicate (2 * level) ' ')

/-- Parts between two brackets, each on a line of its own one level further in. -/
def bracketed (opening closing : String) (level : Nat) (parts : List String) : String :=
  match parts with
  | [] => opening ++ closing
  | parts =>
    opening ++ newline (level + 1) ++ ("," ++ newline (level + 1)).intercalate parts
      ++ newline level ++ closing

mutual

/-- A value that starts on a line of the given level. -/
def Value.write (level : Nat) : Value → String
  | .null => "null"
  | .bool true => "true"
  | .bool false => "false"
  | .nat value => toString value
  | .float value => if value.finite then numberLayout.write value else "null"
  | .text content => quote content
  | .list items => bracketed "[" "]" level (Value.writeItems (level + 1) items)
  | .record entries =>
    let written := Value.writeEntries (level + 1) entries
    bracketed "\x7b" "\x7d" level
      ((written.mergeSort fun a b => decide (a.1 ≤ b.1)).map fun (name, value) =>
        quote name ++ ": " ++ value)

/-- Each item of a list. -/
def Value.writeItems (level : Nat) : List Value → List String
  | [] => []
  | item :: rest => item.write level :: Value.writeItems level rest

/-- Each entry of a record, its name beside its written value. -/
def Value.writeEntries (level : Nat) : List (String × Value) → List (String × String)
  | [] => []
  | (name, value) :: rest => (name, value.write level) :: Value.writeEntries level rest

end

/-- The text of a document. -/
def Value.document (value : Value) : String := value.write 0

end PackedGraph.Json
