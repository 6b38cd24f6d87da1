import PackedGraph.Graph.IdMap
import PackedGraph.Graph.Relationships
import PackedGraph.Ingest.Packing

/-!
# Graphs

A graph has nodes, any number of named relationship types over them, and named node properties.  It
can be traversed type by type, with weights (`weighted`), or in one ascending sequence of targets
merged over all types (`targets`, `cursor`).

Main definitions: `Graph.assemble?` checks that the parts belong together, `Graph.ofEdges?` builds a
graph with one type from an edge list.
-/

namespace PackedGraph

/-- A relationship type under its name. -/
structure NamedType where
  /-- The name. -/
  name : String
  /-- The relationships. -/
  relationships : Relationships
  deriving Inhabited

/-- One value per node, under a name. -/
structure NodeProperty where
  /-- The name. -/
  name : String
  /-- The values. -/
  values : Paged Float
  deriving Inhabited

/-- Nodes, relationships and properties. -/
structure Graph where
  /-- The numbering of the nodes. -/
  nodes : IdMap
  /-- The relationship types in the order in which they were added. -/
  types : List NamedType
  /-- The node properties. -/
  properties : List NodeProperty
  /-- Whether some node has the same target twice, in one type or in two. -/
  parallel : Bool
  deriving Inhabited

/-- A relationship of an edge list, between external ids. -/
structure Edge where
  /-- Where it starts. -/
  source : UInt64
  /-- Where it leads. -/
  target : UInt64
  /-- Its weight. -/
  weight : Float
  deriving Inhabited

/-! ## Putting a graph together -/

namespace Graph

/-- The merged cursor of some types, bound to no node. -/
def cursorOver (types : List NamedType) : Cursor :=
  .unbound (types.map (·.relationships.adjacency))

/-- Whether some node has the same target twice: in one type, which knows it, or in two of them. -/
def hasParallel (nodeCount : Nat) (types : List NamedType) : Bool :=
  types.any (·.relationships.parallel)
    || (decide (2 ≤ types.length) && (List.range nodeCount).any fun node =>
        hasRepeat ((cursorOver types).rebind node).toList)

/-- Every type covers the nodes of the graph, and no two types share a name. -/
def checkTypes (nodeCount : Nat) : List String → List NamedType → Except Fault Unit
  | _, [] => .ok ()
  | seen, type :: rest =>
    let covered := type.relationships.adjacency.nodeCount
    if covered ≠ nodeCount then
      .error (.configuration ("relationship type '" ++ type.name ++ "' covers " ++ toString covered
        ++ " nodes, graph has " ++ toString nodeCount))
    else if seen.contains type.name then
      .error (.configuration ("relationship type '" ++ type.name ++ "' added twice"))
    else checkTypes nodeCount (type.name :: seen) rest

/-- Every property has one value per node. -/
def checkProperties (nodeCount : Nat) (properties : List NodeProperty) : Except Fault Unit :=
  match properties.find? fun p => p.values.size != nodeCount with
  | none => .ok ()
  | some p =>
    .error (.configuration ("node property '" ++ p.name ++ "' has " ++ toString p.values.size
      ++ " values for " ++ toString nodeCount ++ " nodes"))

/-- The last property of each name. -/
def latestProperties (properties : List NodeProperty) : List NodeProperty :=
  properties.foldr (fun p later => if later.any (·.name == p.name) then later else p :: later) []

/-- A graph of parts that belong together. -/
def assemble? (nodes : IdMap) (types : List NamedType) (properties : List NodeProperty) :
    Except Fault Graph := do
  checkProperties nodes.nodeCount properties
  checkTypes nodes.nodeCount [] types
  return ⟨nodes, types, latestProperties properties, hasParallel nodes.nodeCount types⟩

/-- The name of the type where a graph has only one. -/
def onlyType : String := "REL"

/-- A graph whose nodes are the endpoints of an edge list. -/
def ofEdges? (edges : List Edge) (settings : RelationshipSettings) : Except Fault Graph := do
  let nodes := IdMap.ofIds (edges.flatMap fun e => [e.source, e.target])
  let intake ← (Intake.new nodes settings 1).callAll
    (edges.map fun e => .addTo 0 e.source e.target (some e.weight))
  let relationships ← intake.close.build
  assemble? nodes [⟨onlyType, relationships⟩] []

/-! ## What a graph is -/

/-- The number of nodes. -/
def nodeCount (g : Graph) : Nat := g.nodes.nodeCount

/-- All nodes in order. -/
def nodeList (g : Graph) : List Nat := List.range g.nodeCount

/-- The number of stored relationships; one that is stored in both directions counts twice. -/
def relationshipCount (g : Graph) : Nat :=
  g.types.foldl (fun total type => total + type.relationships.adjacency.relationshipCount) 0

/-- The size of the graph. -/
def dimensions (g : Graph) : Dimensions := ⟨g.nodeCount, g.relationshipCount⟩

/-- The external id of a node. -/
def external (g : Graph) (node : Nat) : UInt64 := g.nodes.toExternal node

/-- Whether every type is stored in both directions; there has to be one. -/
def isUndirected (g : Graph) : Bool :=
  !g.types.isEmpty && g.types.all (·.relationships.orientation == .undirected)

/-- Whether every type has weights; there has to be one. -/
def isWeighted (g : Graph) : Bool :=
  !g.types.isEmpty && g.types.all (·.relationships.weights.isSome)

/-- Whether an id can be asked for its relationships.  A graph without types has none for any id. -/
def covers (g : Graph) (node : Nat) : Bool :=
  g.types.all (·.relationships.adjacency.covers node)

/-- How many relationships a node has, over all types. -/
def degree (g : Graph) (node : Nat) : Nat :=
  g.types.foldl (fun total type => total + type.relationships.adjacency.degree node) 0

/-- The largest degree. -/
def maxDegree (g : Graph) : Nat := g.nodeList.foldl (fun largest node => max largest (g.degree node)) 0

/-- The values of a node property. -/
def property? (g : Graph) (name : String) : Option (Paged Float) :=
  (g.properties.find? (·.name == name)).map NodeProperty.values

/-! ## Traversal -/

/-- A cursor bound to no node. -/
def rawCursor (g : Graph) : Cursor := cursorOver g.types

/-- A cursor over all targets of a node, ascending. -/
def cursor (g : Graph) (node : Nat) : Cursor := g.rawCursor.rebind node

/-- All targets of a node, ascending. -/
def targets (g : Graph) (node : Nat) : List Nat := (g.cursor node).toList

/-- All targets of a node with their weights, type by type; a fallback where a type has none. -/
def weighted (g : Graph) (node : Nat) (fallback : Float) : List (Nat × Float) :=
  g.types.flatMap fun type => type.relationships.weighted node fallback

/-- The part of a traversal that a visitor sees who says for each relationship whether to go on. -/
def seenWhile {α : Type} (goOn : Nat → Bool) (relationships : List α) : List α :=
  let stop := (List.range relationships.length).find? fun i => !goOn i
  match stop with
  | none => relationships
  | some last => relationships.take (last + 1)

/-- Whether a relationship from one node to another exists.  The largest word counts as a target of
every node, because it marks the end of the targets. -/
def hasRelationship (g : Graph) (source target : Nat) : Bool :=
  ((g.cursor source).advance target).1.getD largestWord == target

/-! ## Bytes -/

/-- The bytes of all parts. -/
def bytes (g : Graph) : Nat :=
  g.nodes.bytes + g.types.foldl (fun total type => total + type.relationships.bytes) 0
    + g.properties.foldl (fun total p => total + Paged.bytes 8 p.values.size) 0

/-- Bounds for the bytes of a graph with one type. -/
def estimate (d : Dimensions) (hasWeights : Bool) : MemoryRange :=
  .of (IdMap.estimate d.nodes) + Relationships.estimate d hasWeights

end Graph

/-! ## Sharing a graph -/

/-- A graph that several holders share, and the account on which its bytes are. -/
structure SharedGraph where
  /-- The graph. -/
  graph : Graph
  /-- How many holders there are. -/
  holders : Nat
  /-- What is allocated. -/
  account : Account
  deriving Inhabited

namespace SharedGraph

/-- A graph with one holder; its bytes are now allocated. -/
def new (graph : Graph) (account : Account) : SharedGraph := ⟨graph, 1, account.add graph.bytes⟩

/-- One more holder. -/
def share (s : SharedGraph) : SharedGraph := { s with holders := s.holders + 1 }

/-- One holder less; the last one gives the bytes back.  The bytes that are given back. -/
def release (s : SharedGraph) : Nat × SharedGraph :=
  if s.holders = 1 then (s.graph.bytes, { s with holders := 0, account := s.account.remove s.graph.bytes })
  else (0, { s with holders := s.holders - 1 })

end SharedGraph

end PackedGraph
