import PackedGraph.Settings.Basic
import PackedGraph.Text.Fields

/-!
# Command-line options

An argument that begins with two dashes names an option.  Some options are *flags*; the others take a
value, behind an equals sign or in the next argument, which then must not begin with a dash.  An
argument that begins with one dash is a row of one-letter flags.  No option may be given twice, except
the one that takes a list, and there are no arguments without an option.

`Invocation.ofArguments` reads arguments from left to right: a request for help ends the reading, and
so does the first argument at fault.
-/

namespace PackedGraph

/-- What a run is asked to do. -/
structure Options where
  /-- The path of the edge list. -/
  input : String := ""
  /-- The directory for the documents. -/
  outputDirectory : String := "analysis_results"
  /-- The names of the analyses. -/
  analyses : List String := ["wcc", "triangles"]
  /-- Whether relationships are stored in one direction. -/
  directed : Bool := false
  /-- What becomes of parallel relationships. -/
  aggregation : Aggregation := .single
  /-- Smaller clusters are not reported. -/
  minClusterSize : Nat := 3
  /-- Relationships per batch of the loader. -/
  chunkSize : Nat := 100000
  /-- Bytes that no step may exceed in its worst case. -/
  memoryBudget : Option Nat := none
  /-- Nodes with a higher degree take part in no triangle. -/
  maxDegree : Option Nat := none
  /-- Keep this many of the most similar partners of every node. -/
  topK : Option Nat := none
  /-- Keep this many of the least similar partners of every node. -/
  bottomK : Option Nat := none
  /-- Keep this many of the most similar pairs. -/
  topN : Option Nat := none
  /-- Lower similarities are dropped. -/
  similarityCutoff : Float := 0
  /-- Whether betweenness measures paths by weight. -/
  weightedBetweenness : Bool := false
  /-- Whether similarity is measured by overlap. -/
  overlap : Bool := false
  /-- The number of workers; zero for one per processor. -/
  threads : Nat := 0
  /-- Whether a run is to say more. -/
  verbose : Bool := false
  deriving Inhabited

/-- An option by its long name. -/
inductive OptionRule where
  /-- It stands alone. -/
  | flag (name : String) (letter : Option Char) (set : Options → Options)
  /-- It takes a value, or refuses it. -/
  | value (name : String) (set : String → Options → Option Options)
  /-- It takes a list of values between commas and may be given several times. -/
  | list (name : String) (set : List String → Options → Options)

namespace OptionRule

/-- The long name. -/
def name : OptionRule → String
  | flag name _ _ => name
  | value name _ => name
  | list name _ => name

/-- Whether the option is a flag with a letter. -/
def hasLetter (letter : Char) : OptionRule → Bool
  | flag _ own _ => own == some letter
  | _ => false

/-- An option for an unsigned word. -/
def word (name : String) (set : Nat → Options → Options) : OptionRule :=
  .value name fun text o =>
    match parseWord text with
    | .ok n => some (set n.toNat o)
    | .error _ => none

/-- The aggregation with a keyword in any case. -/
def aggregationNamed? (text : String) : Option Aggregation :=
  Aggregation.all.find? fun a => a.keyword.toList.map Char.toLower == lowerCase text.toList

/-- All options. -/
def all : List OptionRule :=
  [.value "input" fun text o => some { o with input := text },
    .value "output-dir" fun text o => some { o with outputDirectory := text },
    .list "algorithms" fun names o => { o with analyses := names },
    .flag "directed" none fun o => { o with directed := true },
    .value "aggregation" fun text o =>
      (aggregationNamed? text).map fun a => { o with aggregation := a },
    .word "min-cluster-size" fun n o => { o with minClusterSize := n },
    .word "chunk-size" fun n o => { o with chunkSize := n },
    .word "memory-budget" fun n o => { o with memoryBudget := some n },
    .word "max-degree" fun n o => { o with maxDegree := some n },
    .word "top-k" fun n o => { o with topK := some n },
    .word "bottom-k" fun n o => { o with bottomK := some n },
    .word "top-n" fun n o => { o with topN := some n },
    .value "similarity-cutoff" fun text o =>
      (parseDouble? text).map fun x => { o with similarityCutoff := x.toFloat },
    .flag "weighted-betweenness" none fun o => { o with weightedBetweenness := true },
    .flag "overlap" none fun o => { o with overlap := true },
    .word "threads" fun n o => { o with threads := n },
    .flag "verbose" (some 'v') fun o => { o with verbose := true }]

end OptionRule

/-- What arguments ask for. -/
inductive Invocation where
  /-- To explain the options. -/
  | help
  /-- Nothing that can be done. -/
  | refused
  /-- A run. -/
  | run (options : Options)

/-- What has been read of the arguments. -/
structure ArgumentState where
  /-- The options so far. -/
  options : Options := {}
  /-- The names of the options that have been given. -/
  given : List String := []
  /-- The values of the list, over all its occurrences. -/
  listed : List String := []
  deriving Inhabited

/-- What comes of reading an argument. -/
inductive ArgumentStep where
  /-- Go on. -/
  | next (state : ArgumentState)
  /-- The next argument has to be a value. -/
  | wants (rule : OptionRule) (state : ArgumentState)
  /-- The reading ends. -/
  | stop (invocation : Invocation)

namespace ArgumentState

/-- Whether an option has been given. -/
def has (s : ArgumentState) (name : String) : Bool := s.given.contains name

/-- A flag is given. -/
def setFlag (s : ArgumentState) (name : String) (set : Options → Options) : ArgumentStep :=
  if s.has name then .stop .refused
  else .next { s with options := set s.options, given := name :: s.given }

/-- An option is given with a value. -/
def setValue (s : ArgumentState) (text : String) : OptionRule → ArgumentStep
  | .flag .. => .stop .refused
  | .value name set =>
    if s.has name then .stop .refused
    else match set text s.options with
      | some options => .next { s with options := options, given := name :: s.given }
      | none => .stop .refused
  | .list name set =>
    let listed := s.listed ++ (pieces (· == ',') text.toList).map String.ofList
    .next { options := set listed s.options, given := name :: s.given, listed := listed }

/-- A long option, with what stands behind an equals sign. -/
def readLong (s : ArgumentState) (name : String) (attached : Option String) : ArgumentStep :=
  match OptionRule.all.find? (·.name == name), attached with
  | some (.flag name _ set), none => s.setFlag name set
  | some rule, some text => s.setValue text rule
  | some rule, none => .wants rule s
  | none, none => .stop (if name = "help" then .help else .refused)
  | none, some _ => .stop .refused

/-- A row of one-letter flags. -/
def readLetters (s : ArgumentState) : List Char → ArgumentStep
  | [] => .next s
  | letter :: rest =>
    match OptionRule.all.find? (·.hasLetter letter) with
    | some (.flag name _ set) =>
      match s.setFlag name set with
      | .next s => s.readLetters rest
      | step => step
    | _ => .stop (if letter = 'h' then .help else .refused)

/-- An argument that is no value. -/
def read (s : ArgumentState) (argument : List Char) : ArgumentStep :=
  match argument with
  | '-' :: '-' :: long =>
    let name := long.takeWhile (· != '=')
    let attached := match long.drop name.length with
      | _ :: text => some (String.ofList text)
      | [] => none
    s.readLong (String.ofList name) attached
  | '-' :: letter :: letters => s.readLetters (letter :: letters)
  | _ => .stop .refused

/-- Whether an argument can be the value of an option. -/
def isValue (argument : List Char) : Bool :=
  match argument with
  | '-' :: _ :: _ => false
  | _ => true

/-- All arguments are read: one option is required, and two exclude each other. -/
def finish (s : ArgumentState) : Invocation :=
  if s.has "input" ∧ ¬ (s.has "top-k" ∧ s.has "bottom-k") then .run s.options else .refused

/-- Read arguments, the first of them being a value if an option waits for one.  Behind two dashes there
may be nothing. -/
def readAll : List String → Option OptionRule → ArgumentState → Invocation
  | [], none, s => s.finish
  | [], some _, _ => .refused
  | argument :: rest, some rule, s =>
    if isValue argument.toList then
      match s.setValue argument rule with
      | .next s => readAll rest none s
      | .wants rule s => readAll rest (some rule) s
      | .stop invocation => invocation
    else .refused
  | argument :: rest, none, s =>
    if argument = "--" then if rest.isEmpty then s.finish else .refused
    else match s.read argument.toList with
      | .next s => readAll rest none s
      | .wants rule s => readAll rest (some rule) s
      | .stop invocation => invocation

end ArgumentState

/-- What arguments ask for. -/
def Invocation.ofArguments (arguments : List String) : Invocation :=
  ArgumentState.readAll arguments none {}

end PackedGraph
