import PackedGraph.Graph.Basic
import PackedGraph.Text.Fields

/-!
# Edge lists

A file with one relationship per line: a source, a target and perhaps a weight, separated by white
space or commas.  Blank lines and lines that begin with `#` or `%` are comments.

Lines are read at the same time.  Where several are at fault, the failure of one of them is reported, whichever
is noticed first: that is left open by `FaultReport`.

Main definitions: `EdgeRecord.ofLine` reads one line, `EdgeList.ofText` all of them, and
`EdgeList.readWith` a file that may be missing or unreadable.
-/

namespace PackedGraph

/-- A relationship as a line gives it. -/
structure EdgeRecord where
  /-- Where it starts. -/
  source : UInt64
  /-- Where it leads. -/
  target : UInt64
  /-- Its weight, if the line has one. -/
  weight : Option Float
  deriving Inhabited

/-- What separates the fields of a line. -/
def isFieldSeparator (c : Char) : Bool := isBlank c || c == ','

/-- Whether a line without surrounding white space holds no relationship. -/
def isComment (line : List Char) : Bool :=
  match line with
  | [] => true
  | c :: _ => c == '#' || c == '%'

namespace EdgeRecord

/-- How failures name a line. -/
def onLine (number : Nat) (text : String) : String := "line " ++ toString number ++ ": " ++ text

/-- An id in one of the fields. -/
def readId (number : Nat) (role : String) (field : List Char) : Except Failure UInt64 :=
  match parseWord (String.ofList field) with
  | .ok id => .ok id
  | .error error => .error (.within
      (onLine number ("invalid " ++ role ++ " id '" ++ String.ofList field ++ "'"))
      (.remark error.message))

/-- A weight in the third field. -/
def readWeight (number : Nat) (field : List Char) : Except Failure Float :=
  match parseDouble? (String.ofList field) with
  | some weight => .ok weight.toFloat
  | none => .error (.within (onLine number ("invalid weight '" ++ String.ofList field ++ "'"))
      (.remark "invalid float literal"))

/-- The relationship of the fields of a line. -/
def ofFields (number : Nat) : List (List Char) → Except Failure EdgeRecord
  | [source, target] => do
    return ⟨← readId number "source" source, ← readId number "target" target, none⟩
  | [source, target, weight] => do
    let source ← readId number "source" source
    let target ← readId number "target" target
    return ⟨source, target, some (← readWeight number weight)⟩
  | fields => .error (.remark (onLine number
      ("expected `source target [weight]`, found " ++ toString fields.length ++ " fields")))

/-- The relationship of a line, if it holds one. -/
def ofLine (number : Nat) (line : List Char) : Except Failure (Option EdgeRecord) :=
  let line := trim line
  if isComment line then .ok none else (ofFields number (fields isFieldSeparator line)).map some

end EdgeRecord

/-- The relationships of a file. -/
structure EdgeList where
  /-- The relationships in order. -/
  edges : List Edge
  /-- Whether any line gives a weight. -/
  weighted : Bool
  deriving Inhabited

/-- What is reported where lines are at fault. -/
structure FaultReport where
  /-- The failure that is reported, of the first one in the file and those behind it. -/
  pick : Failure → List Failure → Failure
  /-- It is one of them. -/
  pick_mem : ∀ first later, pick first later ∈ first :: later

/-- A worker alone reads the lines in order, and reports the first that is at fault. -/
def FaultReport.ofOneWorker : FaultReport := ⟨fun first _ => first, fun _ _ => List.mem_cons_self⟩

/-- A file that is to be read. -/
inductive InputFile where
  /-- There is none. -/
  | missing
  /-- The system does not hand out its content. -/
  | unreadable (reason : String)
  /-- Its bytes. -/
  | content (bytes : ByteArray)

namespace EdgeList

/-- The number of relationships. -/
def size (list : EdgeList) : Nat := list.edges.length

/-- A record with a default for a missing weight. -/
def edgeOf (defaultWeight : Float) (record : EdgeRecord) : Edge :=
  ⟨record.source, record.target, record.weight.getD defaultWeight⟩

/-- The list of some records. -/
def ofRecords (defaultWeight : Float) (records : List EdgeRecord) : EdgeList :=
  ⟨records.map (edgeOf defaultWeight), records.any (·.weight.isSome)⟩

/-- What is found on a line, given the number of lines in front of it. -/
def readNumbered (numbered : List Char × Nat) : Except Failure (Option EdgeRecord) :=
  EdgeRecord.ofLine (numbered.2 + 1) numbered.1

/-- The record that is found on a line. -/
def record? : Except Failure (Option EdgeRecord) → Option EdgeRecord
  | .ok found => found
  | .error _ => none

/-- The failure of a line that is at fault. -/
def failure? : Except Failure (Option EdgeRecord) → Option Failure
  | .ok _ => none
  | .error failure => some failure

/-- The records of lines that are numbered from one, if none of them is at fault. -/
def recordsOf (report : FaultReport) (lines : List (List Char)) : Except Failure (List EdgeRecord) :=
  let results := lines.zipIdx.map readNumbered
  match results.filterMap failure? with
  | [] => .ok (results.filterMap record?)
  | first :: later => .error (report.pick first later)

/-- The relationships of a text. -/
def ofText (report : FaultReport) (text : List Char) (defaultWeight : Float) : Except Failure EdgeList :=
  (recordsOf report (pieces (· == '\n') text)).map (ofRecords defaultWeight)

/-- The relationships of a file. -/
def readWith (report : FaultReport) (path : String) (file : InputFile) (defaultWeight : Float) :
    Except Failure EdgeList :=
  match file with
  | .missing => .error (.remark ("File not found: " ++ path))
  | .unreadable reason => .error (.within ("cannot read " ++ path) (.remark reason))
  | .content bytes =>
    match String.fromUTF8? bytes with
    | none =>
      .error (.within ("cannot read " ++ path) (.remark "stream did not contain valid UTF-8"))
    | some text => ofText report text.toList defaultWeight

/-- The relationships of a file that one worker reads. -/
def read (path : String) (file : InputFile) (defaultWeight : Float) : Except Failure EdgeList :=
  readWith .ofOneWorker path file defaultWeight

end EdgeList

end PackedGraph
