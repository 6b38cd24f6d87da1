import PackedGraph.Numeric.Binary64

/-!
# Policies for relationships

How a relationship of the input becomes stored ones: in which direction (`Orientation`) and what
happens to several relationships between the same two nodes (`Aggregation`).

`Orientation.stored` is the rule for directions; `Aggregation.initial` and `Aggregation.combine` fold
the weights of parallel relationships in the order of their arrival.
-/

namespace PackedGraph

/-- The direction in which relationships are stored. -/
inductive Orientation where
  /-- From source to target. -/
  | natural
  /-- From target to source. -/
  | reverse
  /-- In both directions. -/
  | undirected
  deriving Repr, DecidableEq, Inhabited

/-- What becomes of parallel relationships, those that share source and target. -/
inductive Aggregation where
  /-- All are kept. -/
  | none
  /-- They are refused. -/
  | reject
  /-- The first stays with its weight. -/
  | single
  /-- One stays, weighted by the sum. -/
  | sum
  /-- One stays, weighted by the smallest weight. -/
  | min
  /-- One stays, weighted by the largest weight. -/
  | max
  /-- One stays, weighted by their number. -/
  | count
  deriving Repr, DecidableEq, Inhabited

namespace Orientation

/-- The word for an orientation in configurations and reports. -/
def keyword : Orientation → String
  | natural => "NATURAL"
  | reverse => "REVERSE"
  | undirected => "UNDIRECTED"

/-- All orientations. -/
def all : List Orientation := [natural, reverse, undirected]

/-- The pairs of nodes stored for a relationship from `source` to `target`.  A relationship of a node
with itself is stored once, whatever the orientation. -/
def stored (orientation : Orientation) (source target : Nat) : List (Nat × Nat) :=
  match orientation with
  | natural => [(source, target)]
  | reverse => [(target, source)]
  | undirected => if source = target then [(source, target)] else [(source, target), (target, source)]

end Orientation

namespace Aggregation

/-- The word for an aggregation in configurations and reports. -/
def keyword : Aggregation → String
  | none => "NONE"
  | reject => "REJECT"
  | single => "SINGLE"
  | sum => "SUM"
  | min => "MIN"
  | max => "MAX"
  | count => "COUNT"

/-- All aggregations. -/
def all : List Aggregation := [none, reject, single, sum, min, max, count]

/-- The weight of a group with one member. -/
def initial (aggregation : Aggregation) (weight : Float) : Float :=
  match aggregation with
  | count => 1
  | _ => weight

/-- The weight of a group after one more member. -/
def combine (aggregation : Aggregation) (current weight : Float) : Float :=
  match aggregation with
  | sum => current + weight
  | min => floatMin current weight
  | max => floatMax current weight
  | count => current + 1
  | none | reject | single => current

end Aggregation

end PackedGraph
