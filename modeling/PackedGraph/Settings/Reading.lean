import PackedGraph.Json.Raw
import PackedGraph.Settings.Basic

/-!
# Settings from JSON

A record of settings is read from a JSON record, in which every field may be missing and fields of
other names are passed over, or from a JSON list of the fields in order, of which the last may be
missing.  A field that occurs twice, or whose value has another type, refuses the whole text.
-/

namespace PackedGraph

open Json (Raw)

/-- A field of a record of settings: its name, and how its value changes the settings. -/
structure SettingField (σ : Type) where
  /-- The name in JSON. -/
  name : String
  /-- The settings with the field set, or nothing where the value has the wrong type. -/
  read : Raw → σ → Option σ

namespace SettingField

variable {σ : Type}

/-- Fields by name; a name may occur once. -/
def readEntries (table : List (SettingField σ)) :
    List String → List (Option String × Raw) → σ → Option σ
  | _, [], settings => some settings
  | _, (none, _) :: _, _ => none
  | seen, (some name, value) :: rest, settings =>
    match table.find? (·.name == name) with
    | none => readEntries table seen rest settings
    | some field =>
      if seen.contains name then none
      else (field.read value settings).bind fun settings =>
        readEntries table (name :: seen) rest settings

/-- Fields by position; there may be fewer values than fields. -/
def readItems : List (SettingField σ) → List Raw → σ → Option σ
  | _, [], settings => some settings
  | [], _ :: _, _ => none
  | field :: table, value :: rest, settings =>
    (field.read value settings).bind fun settings => readItems table rest settings

/-- Settings from a record or a list, starting from the defaults. -/
def readAll (table : List (SettingField σ)) (defaults : σ) : Raw → Option σ
  | .record entries => readEntries table [] entries defaults
  | .list items => readItems table items defaults
  | _ => none

/-! ## Types of values -/

/-- An unsigned word. -/
def nat (name : String) (set : Nat → σ → σ) : SettingField σ :=
  ⟨name, fun value settings => match value with
    | .number n => n.word?.map fun n => set n settings
    | _ => none⟩

/-- An unsigned word, or `null` for none. -/
def optionalNat (name : String) (set : Option Nat → σ → σ) : SettingField σ :=
  ⟨name, fun value settings => match value with
    | .null => some (set none settings)
    | .number n => n.word?.map fun n => set (some n) settings
    | _ => none⟩

/-- A truth value. -/
def bool (name : String) (set : Bool → σ → σ) : SettingField σ :=
  ⟨name, fun value settings => match value with
    | .bool value => some (set value settings)
    | _ => none⟩

/-- A double; integers are allowed. -/
def double (name : String) (set : Float → σ → σ) : SettingField σ :=
  ⟨name, fun value settings => match value with
    | .number n => n.double?.map fun x => set x settings
    | _ => none⟩

/-- One of several keywords, as a string or as the only name of a record whose value is `null`. -/
def choice {α : Type} (name : String) (all : List α) (keyword : α → String) (set : α → σ → σ) :
    SettingField σ :=
  ⟨name, fun value settings =>
    let word := match value with
      | .text content => content
      | .record [(key, .null)] => key
      | _ => none
    word.bind fun word => (all.find? (keyword · == word)).map fun option => set option settings⟩

end SettingField

namespace RelationshipSettings

/-- The fields in order. -/
def table : List (SettingField RelationshipSettings) :=
  [.choice "orientation" Orientation.all Orientation.keyword fun x s =>
      { s with orientation := x },
    .choice "aggregation" Aggregation.all Aggregation.keyword fun x s =>
      { s with aggregation := x },
    .bool "allow_self_loops" fun x s => { s with allowSelfLoops := x },
    .bool "weighted" fun x s => { s with weighted := x },
    .double "default_weight" fun x s => { s with defaultWeight := x },
    .nat "batch_size" fun x s => { s with batchSize := x },
    .nat "concurrency" fun x s => { s with concurrency := x }]

/-- Settings from JSON. -/
def ofRaw (processors : Nat) : Raw → Option RelationshipSettings :=
  SettingField.readAll table { concurrency := processors }

end RelationshipSettings

/-- The fields in order. -/
def RunSettings.table : List (SettingField RunSettings) :=
  [.nat "concurrency" fun x s => { s with concurrency := x },
    .nat "min_cluster_size" fun x s => { s with minClusterSize := x },
    .nat "chunk_size" fun x s => { s with chunkSize := x },
    .optionalNat "memory_budget" fun x s => { s with memoryBudget := x }]

/-- Settings from JSON. -/
def RunSettings.ofRaw (processors : Nat) : Raw → Option RunSettings :=
  SettingField.readAll table { concurrency := processors }

/-- The fields in order. -/
def TriangleSettings.table : List (SettingField TriangleSettings) :=
  [.nat "concurrency" fun x s => { s with concurrency := x },
    .nat "max_degree" fun x s => { s with maxDegree := x }]

/-- Settings from JSON. -/
def TriangleSettings.ofRaw (processors : Nat) : Raw → Option TriangleSettings :=
  SettingField.readAll table { concurrency := processors }

/-- The fields in order. -/
def BetweennessSettings.table : List (SettingField BetweennessSettings) :=
  [.nat "concurrency" fun x s => { s with concurrency := x },
    .nat "batch_size" fun x s => { s with batchSize := x },
    .bool "weighted" fun x s => { s with weighted := x }]

/-- Settings from JSON. -/
def BetweennessSettings.ofRaw (processors : Nat) : Raw → Option BetweennessSettings :=
  SettingField.readAll table { concurrency := processors }

/-- The fields in order. -/
def SimilaritySettings.table : List (SettingField SimilaritySettings) :=
  [.nat "concurrency" fun x s => { s with concurrency := x },
    .double "similarity_cutoff" fun x s => { s with cutoff := x },
    .nat "degree_cutoff" fun x s => { s with degreeCutoff := x },
    .optionalNat "top_k" fun x s => { s with topK := x },
    .optionalNat "bottom_k" fun x s => { s with bottomK := x },
    .optionalNat "top_n" fun x s => { s with topN := x },
    .optionalNat "bottom_n" fun x s => { s with bottomN := x },
    .choice "metric" SimilarityMetric.all SimilarityMetric.keyword fun x s => { s with metric := x },
    .nat "batch_size" fun x s => { s with batchSize := x }]

/-- Settings from JSON. -/
def SimilaritySettings.ofRaw (processors : Nat) : Raw → Option SimilaritySettings :=
  SettingField.readAll table { concurrency := processors }

/-- The fields in order. -/
def ComponentSettings.table : List (SettingField ComponentSettings) :=
  [.nat "concurrency" fun x s => { s with concurrency := x },
    .nat "min_cluster_size" fun x s => { s with minClusterSize := x }]

/-- Settings from JSON. -/
def ComponentSettings.ofRaw (processors : Nat) : Raw → Option ComponentSettings :=
  SettingField.readAll table { concurrency := processors }

end PackedGraph
