import PackedGraph.Graph.Basic

/-!
# Showing relationships to a visitor

A visitor is shown the relationships of a node one after the other.  It keeps a state, and each time it
says whether it wants to see more; the first time it does not, the traversal ends.  Relationships are shown
by ascending targets, merged over all types (`Graph.visit`), or type by type with their weights
(`Graph.visitWeighted`).
-/

namespace PackedGraph

/-- One who is shown things one by one: whether it wants to see more, and what it has made of them. -/
abbrev Visitor (α σ : Type) := σ → α → Bool × σ

variable {α σ : Type}

/-- What a visitor has made of things that it has been shown. -/
def Visitor.after (visitor : Visitor α σ) (s : σ) (shown : List α) : σ :=
  shown.foldl (fun s x => (visitor s x).2) s

namespace Cursor

/-- Show the targets that are left, with their places counted from `place`, until there are none or the
visitor has seen enough; whether it wants to see more.  The number of steps bounds the targets. -/
def visitFrom (visitor : Visitor (Nat × Nat) σ) : (steps place : Nat) → Cursor → σ → Bool × σ
  | 0, _, _, s => (true, s)
  | steps + 1, place, c, s =>
    match c.next with
    | (none, _) => (true, s)
    | (some target, c) =>
      match visitor s (target, place) with
      | (false, s) => (false, s)
      | (true, s) => visitFrom visitor steps (place + 1) c s

/-- Show the targets that are left, with their places. -/
def visit (visitor : Visitor (Nat × Nat) σ) (c : Cursor) (s : σ) : Bool × σ :=
  visitFrom visitor c.remaining 0 c s

/-- Whether one of the targets that are left equals the one in front of it, `previous` being in front of
the first.  The number of steps bounds the targets. -/
def repeatsFrom : (steps previous : Nat) → Cursor → Bool
  | 0, _, _ => false
  | steps + 1, previous, c =>
    match c.next with
    | (none, _) => false
    | (some target, c) => target == previous || repeatsFrom steps target c

/-- Whether one of the targets that are left is repeated.  In front of the first is the largest word, which
marks the end of the targets and is none of them. -/
def repeats (c : Cursor) : Bool := repeatsFrom c.remaining largestWord c

end Cursor

/-- The weight that a target of a node comes with; a fallback where there are no weights. -/
def Relationships.weightAt (r : Relationships) (node : Nat) (fallback : Float) (place : Nat) : Float :=
  match r.weights with
  | none => fallback
  | some weights => (weights.get? node place).getD fallback

namespace Graph

/-- Show the relationships of a node, as pairs of nodes, by ascending targets. -/
def visit (g : Graph) (node : Nat) (visitor : Visitor (Nat × Nat) σ) (s : σ) : σ :=
  ((g.cursor node).visit (fun s (target, _) => visitor s (node, target)) s).2

/-- Show the relationships that a node has in some types, with their weights. -/
def visitTypes (node : Nat) (fallback : Float) (visitor : Visitor (Nat × Nat × Float) σ) :
    List NamedType → σ → σ
  | [], s => s
  | type :: later, s =>
    let r := type.relationships
    match ((Cursor.unbound [r.adjacency]).rebind node).visit
      (fun s (target, place) => visitor s (node, target, r.weightAt node fallback place)) s with
    | (false, s) => s
    | (true, s) => visitTypes node fallback visitor later s

/-- Show the relationships of a node with their weights, type by type; a fallback where a type has no
weights. -/
def visitWeighted (g : Graph) (node : Nat) (fallback : Float)
    (visitor : Visitor (Nat × Nat × Float) σ) (s : σ) : σ :=
  visitTypes node fallback visitor g.types s

end Graph

end PackedGraph
