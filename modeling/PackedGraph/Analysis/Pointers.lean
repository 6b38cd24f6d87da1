import PackedGraph.Analysis.DisjointSets
import PackedGraph.Storage.Paged

/-!
# Disjoint sets in words

The pointers of disjoint sets lie in an array of words, which is read and changed one word at a time.  Finding
a root and uniting two sets are loops over that array.  They break down at an index past its end, and are cut
off after some number of turns.
-/

namespace PackedGraph

namespace Pointers

/-- Every number points at itself. -/
def new (size : UInt64) : Paged UInt64 := .ofFn size.toNat UInt64.ofNat

/-- Go from a number to its root.  Every other number on the way is pointed at its grandparent, if nobody has
changed it meanwhile. -/
def find? : Nat → UInt64 → Paged UInt64 → Option (UInt64 × Paged UInt64)
  | 0, _, _ => none
  | turns + 1, current, pointers =>
    (pointers.get? current.toNat).bind fun parent =>
      if parent = current then some (current, pointers)
      else (pointers.get? parent.toNat).bind fun grandparent =>
        if grandparent = parent then find? turns grandparent pointers
        else (pointers.compareAndSet? current.toNat parent grandparent).bind fun (_, pointers) =>
          find? turns grandparent pointers

/-- Point the larger of two roots at the smaller, and begin again if it is no root any more. -/
def union? (climb : Nat) : Nat → UInt64 → UInt64 → Paged UInt64 → Option (Paged UInt64)
  | 0, _, _, _ => none
  | turns + 1, left, right, pointers =>
    (find? climb left pointers).bind fun (a, pointers) =>
      (find? climb right pointers).bind fun (b, pointers) =>
        if a = b then some pointers
        else
          let (small, large) := if a < b then (a, b) else (b, a)
          (pointers.compareAndSet? large.toNat large small).bind fun (linked, pointers) =>
            if linked then some pointers else union? climb turns left right pointers

/-- Whether two numbers have one root. -/
def sameSet? (turns : Nat) (left right : UInt64) (pointers : Paged UInt64) : Option (Bool × Paged UInt64) :=
  (find? turns left pointers).bind fun (a, pointers) =>
    (find? turns right pointers).map fun (b, pointers) => (a == b, pointers)

end Pointers

end PackedGraph
