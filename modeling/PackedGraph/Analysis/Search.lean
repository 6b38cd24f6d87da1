import PackedGraph.Numeric.Binary64

/-!
# Shortest paths from one source

A search finds the least distance of every node from a source, counts the shortest paths to it, and
notes its predecessors on them.  `breadthFirst` measures a path by its hops and goes level by level;
`cheapestFirst` measures it by the sum of its weights and settles the cheapest node next.

`accumulate` then walks back from the farthest node.  It adds up, for every node, the share of shortest
paths from the source that lead through it, and empties the buffers for the next source.

Costs and shares are reckoned in any type with the operations of `PathCost` and `Reckoning`; a run
takes doubles for both.
-/

namespace PackedGraph

/-- What costs of paths need. -/
class PathCost (κ : Type) where
  /-- The cost of staying at the source. -/
  zero : κ
  /-- The cost of a node that has not been reached. -/
  unreached : κ
  /-- The cost of a path with one more relationship. -/
  add : κ → κ → κ
  /-- Whether the first cost is less than the second. -/
  less : κ → κ → Bool
  /-- Whether two costs are equal. -/
  same : κ → κ → Bool

instance : PathCost Float where
  zero := 0
  unreached := 1.0 / 0.0
  add := (· + ·)
  less a b := decide (a < b)
  same a b := a == b

/-- What shares of paths need. -/
class Reckoning (ρ : Type) where
  /-- The number that stands for a count. -/
  ofCount : Nat → ρ
  /-- The sum. -/
  add : ρ → ρ → ρ
  /-- The product. -/
  mul : ρ → ρ → ρ
  /-- The quotient. -/
  div : ρ → ρ → ρ

instance : Reckoning Float where
  ofCount := natToFloat
  add := (· + ·)
  mul := (· * ·)
  div := (· / ·)

/-- Path counts stop at this number. -/
def pathLimit : Nat := 18446744073709551615

/-- The sum of two path counts. -/
def addPaths (a b : Nat) : Nat := min (a + b) pathLimit

/-- The buffers of a search.  Between two sources they are all empty, except for nodes that have been reached
at infinite cost only. -/
structure Search (κ ρ : Type) where
  /-- How many shortest paths lead to each node. -/
  paths : Array Nat
  /-- What each node's successors on shortest paths have added up. -/
  dependency : Array ρ
  /-- For each node one more than its distance in hops, or a mark that its cost is final; zero for a
  node that has not been visited. -/
  distance : Array Nat
  /-- The least cost known for each node, where paths have costs. -/
  cost : Array κ
  /-- The nodes in front of each node on shortest paths, once per relationship. -/
  predecessors : Array (List Nat)
  /-- The nodes whose distance is final, the farthest first. -/
  settled : List Nat

namespace Search

variable {κ ρ : Type} [PathCost κ] [Reckoning ρ]

/-- Empty buffers for so many nodes. -/
def new (nodeCount : Nat) (withCosts : Bool) : Search κ ρ :=
  { paths := Array.replicate nodeCount 0
    dependency := Array.replicate nodeCount (Reckoning.ofCount 0)
    distance := Array.replicate nodeCount 0
    cost := if withCosts then Array.replicate nodeCount PathCost.unreached else #[]
    predecessors := Array.replicate nodeCount []
    settled := [] }

/-- How many shortest paths lead to a node. -/
def pathsTo (s : Search κ ρ) (node : Nat) : Nat := s.paths.getD node 0

/-- The mark of a node; zero for a node that has not been visited. -/
def mark (s : Search κ ρ) (node : Nat) : Nat := s.distance.getD node 0

/-- The least cost known for a node. -/
def costOf (s : Search κ ρ) (node : Nat) : κ := s.cost.getD node PathCost.unreached

/-- More shortest paths lead to a node, all through one predecessor. -/
def addPredecessor (s : Search κ ρ) (node predecessor paths : Nat) : Search κ ρ :=
  { s with
    paths := s.paths.modify node (addPaths · paths)
    predecessors := s.predecessors.modify node (predecessor :: ·) }

/-! ## By hops -/

/-- Follow a relationship from a node to a target, which is on the next level unless it has been
visited before; `later` holds the next level so far, latest first. -/
def reach (node nextDistance paths : Nat) (state : Search κ ρ × List Nat) (target : Nat) :
    Search κ ρ × List Nat :=
  let (s, later) := state
  let (s, later) :=
    if s.mark target = 0 then
      ({ s with distance := s.distance.setIfInBounds target nextDistance }, target :: later)
    else (s, later)
  if s.mark target = nextDistance then (s.addPredecessor target node paths, later) else (s, later)

/-- Settle a node and follow its relationships. -/
def expand (targets : Nat → List Nat) (state : Search κ ρ × List Nat) (node : Nat) :
    Search κ ρ × List Nat :=
  let (s, later) := state
  let s := { s with settled := node :: s.settled }
  let nextDistance := s.mark node + 1
  let paths := s.pathsTo node
  (targets node).foldl (reach node nextDistance paths) (s, later)

/-- Expand level after level; the steps bound the levels. -/
def expandLevels (targets : Nat → List Nat) : Nat → Search κ ρ → List Nat → Search κ ρ
  | 0, s, _ => s
  | _, s, [] => s
  | steps + 1, s, level =>
    let (s, later) := level.foldl (expand targets) (s, [])
    expandLevels targets steps s later.reverse

/-- Search by hops. -/
def breadthFirst (targets : Nat → List Nat) (source : Nat) (s : Search κ ρ) : Search κ ρ :=
  let steps := s.distance.size + 1
  expandLevels targets steps
    { s with
      paths := s.paths.setIfInBounds source 1
      distance := s.distance.setIfInBounds source 1 }
    [source]

/-! ## By cost -/

/-- A node that has been reached at a cost, perhaps not the least. -/
structure Tentative (κ : Type) where
  /-- The cost. -/
  cost : κ
  /-- The node. -/
  node : Nat

/-- Whether one node is to be settled before another: the cheaper one, or the smaller one. -/
def Tentative.before (a b : Tentative κ) : Bool :=
  PathCost.less a.cost b.cost || (!PathCost.less b.cost a.cost && decide (a.node ≤ b.node))

/-- Put a node where it belongs in the frontier. -/
def Tentative.insert (entry : Tentative κ) : List (Tentative κ) → List (Tentative κ)
  | [] => [entry]
  | other :: rest =>
    if entry.before other then entry :: other :: rest else other :: Tentative.insert entry rest

/-- Follow a relationship from a settled node: a cheaper way to the target replaces all before it, an
equally cheap one joins them. -/
def relax (node : Nat) (cost : κ) (paths : Nat) (state : Search κ ρ × List (Tentative κ))
    (relationship : Nat × κ) : Search κ ρ × List (Tentative κ) :=
  let (s, frontier) := state
  let (target, weight) := relationship
  if s.mark target ≠ 0 then (s, frontier)
  else
    let candidate := PathCost.add cost weight
    let known := s.costOf target
    if PathCost.less candidate known then
      ({ s with
          cost := s.cost.setIfInBounds target candidate
          paths := s.paths.setIfInBounds target paths
          predecessors := s.predecessors.setIfInBounds target [node] },
        Tentative.insert ⟨candidate, target⟩ frontier)
    else if PathCost.same candidate known then (s.addPredecessor target node paths, frontier)
    else (s, frontier)

/-- Take the first node of the frontier.  It is settled unless it has been before, or has been reached
at a lower cost meanwhile. -/
def settleNext (relationships : Nat → List (Nat × κ)) (entry : Tentative κ) (s : Search κ ρ)
    (frontier : List (Tentative κ)) : Search κ ρ × List (Tentative κ) :=
  if s.mark entry.node ≠ 0 ∨ PathCost.less (s.costOf entry.node) entry.cost then (s, frontier)
  else
    let s := { s with
      distance := s.distance.setIfInBounds entry.node 1
      settled := entry.node :: s.settled }
    let paths := s.pathsTo entry.node
    (relationships entry.node).foldl (relax entry.node entry.cost paths) (s, frontier)

/-- Settle nodes until the frontier is empty; the steps bound the nodes put into it. -/
def settleAll (relationships : Nat → List (Nat × κ)) :
    Nat → Search κ ρ → List (Tentative κ) → Search κ ρ
  | 0, s, _ => s
  | _, s, [] => s
  | steps + 1, s, entry :: frontier =>
    let (s, frontier) := settleNext relationships entry s frontier
    settleAll relationships steps s frontier

/-- Search by cost.  A node is put into the frontier at most once per relationship that leads to it. -/
def cheapestFirst (relationships : Nat → List (Nat × κ)) (relationshipCount source : Nat)
    (s : Search κ ρ) : Search κ ρ :=
  settleAll relationships (relationshipCount + 2)
    { s with
      paths := s.paths.setIfInBounds source 1
      cost := s.cost.setIfInBounds source PathCost.zero }
    [⟨PathCost.zero, source⟩]

/-! ## The way back -/

/-- What a node passes on to each of its predecessors, given how many paths lead to the predecessor. -/
def share (paths : ρ) (dependency : ρ) (predecessorPaths : Nat) : ρ :=
  Reckoning.mul (Reckoning.div (Reckoning.ofCount predecessorPaths) paths)
    (Reckoning.add (Reckoning.ofCount 1) dependency)

/-- Empty the buffers of a node. -/
def clear (s : Search κ ρ) (node : Nat) : Search κ ρ :=
  { s with
    paths := s.paths.setIfInBounds node 0
    dependency := s.dependency.setIfInBounds node (Reckoning.ofCount 0)
    distance := s.distance.setIfInBounds node 0
    cost := s.cost.setIfInBounds node PathCost.unreached
    predecessors := s.predecessors.setIfInBounds node [] }

/-- Pass the dependency of a node on to its predecessors, add it to the node's score unless the node
is the source, and empty the node's buffers. -/
def passOn (source : Nat) (state : Search κ ρ × Array ρ) (node : Nat) : Search κ ρ × Array ρ :=
  let (s, scores) := state
  let dependency := s.dependency.getD node (Reckoning.ofCount 0)
  let paths : ρ := Reckoning.ofCount (s.pathsTo node)
  let s := (s.predecessors.getD node []).foldl
    (fun (s : Search κ ρ) predecessor =>
      let share := share paths dependency (s.pathsTo predecessor)
      { s with dependency := s.dependency.modify predecessor (Reckoning.add · share) })
    s
  let scores := if node = source then scores else scores.modify node (Reckoning.add · dependency)
  (s.clear node, scores)

/-- Walk back from the farthest node. -/
def accumulate (source : Nat) (s : Search κ ρ) (scores : Array ρ) : Search κ ρ × Array ρ :=
  let nodes := s.settled
  nodes.foldl (passOn source) ({ s with settled := [] }, scores)

end Search

end PackedGraph
