import Mathlib.Logic.Function.Iterate
import PackedGraph.Proofs.Analysis.BreadthFirst
import PackedGraph.Proofs.Analysis.CheapestFirst

/-!
# Searching without a bound on the steps

The searches are told how many steps they may take.  Here they take their turns one by one, as long as there is
something left to do: a search by hops serves the first node of a queue and puts the nodes it has found behind
all others, a search by cost takes the first entry of the frontier.  After some number of turns nothing is left,
and the buffers are those of the search that counts its steps.  So the bounds never cut a search short, and
nodes that are found one after the other in a queue are expanded as nodes of one level after those of another.

Main statements: `Search.exists_turns_breadthFirst` and `Search.exists_turns_cheapestFirst`.
-/

namespace PackedGraph

namespace Search

variable {κ ρ : Type} {s : Search κ ρ} {source nodeCount : Nat} {targets : Nat → List Nat}

/-! ## By hops -/

/-- Expand the first node of a queue, and put the nodes that it finds at the end. -/
def serveNext (targets : Nat → List Nat) : Search κ ρ × List Nat → Search κ ρ × List Nat
  | (s, []) => (s, [])
  | (s, node :: queue) =>
    let (s, found) := expand targets (s, []) node
    (s, queue ++ found.reverse)

/-- What has been found before is only carried along. -/
theorem reach_append (node next paths target : Nat) (s : Search κ ρ) (found later : List Nat) :
    reach node next paths (s, found ++ later) target =
      ((reach node next paths (s, found) target).1, (reach node next paths (s, found) target).2 ++ later) := by
  simp only [reach]
  by_cases hunvisited : s.mark target = 0
  · simp only [if_pos hunvisited]
    split <;> rfl
  · simp only [if_neg hunvisited]
    split <;> rfl

theorem foldl_reach_append (node next paths : Nat) (todo : List Nat) (s : Search κ ρ) (found later : List Nat) :
    todo.foldl (reach node next paths) (s, found ++ later) =
      ((todo.foldl (reach node next paths) (s, found)).1,
        (todo.foldl (reach node next paths) (s, found)).2 ++ later) := by
  induction todo generalizing s found with
  | nil => rfl
  | cons target todo ih => rw [List.foldl_cons, reach_append, ih, List.foldl_cons]

theorem expand_append (targets : Nat → List Nat) (s : Search κ ρ) (later : List Nat) (node : Nat) :
    expand targets (s, later) node =
      ((expand targets (s, []) node).1, (expand targets (s, []) node).2 ++ later) :=
  foldl_reach_append _ _ _ _ _ [] later

/-- A level that stands at the front of the queue is served in as many turns as it has nodes. -/
theorem iterate_serveNext (targets : Nat → List Nat) (todo : List Nat) (s : Search κ ρ) (later : List Nat) :
    (serveNext targets)^[todo.length] (s, todo ++ later.reverse) =
      ((todo.foldl (expand targets) (s, later)).1, (todo.foldl (expand targets) (s, later)).2.reverse) := by
  induction todo generalizing s later with
  | nil => rfl
  | cons node todo ih =>
    have hturn : serveNext targets (s, node :: todo ++ later.reverse) =
        ((expand targets (s, later) node).1, todo ++ (expand targets (s, later) node).2.reverse) := by
      rw [expand_append, List.reverse_append, ← List.append_assoc]
      rfl
    rw [List.length_cons, Function.iterate_succ_apply, hturn, ih, List.foldl_cons]

section

variable [PathCost κ] [Reckoning ρ]

/-- **The queue runs empty**, and then the search by hops is over. -/
theorem exists_turns_breadthFirst (htargets : ∀ u, ∀ target ∈ targets u, target < nodeCount)
    (hsource : source < nodeCount) (withCosts : Bool) :
    ∃ turns, (serveNext targets)^[turns] (begun nodeCount withCosts source, [source]) =
      ((new nodeCount withCosts : Search κ ρ).breadthFirst targets source, []) := by
  rw [breadthFirst_new]
  refine (expandLevels_induction nodeCount (fun s todo => (∃ level,
      Levels source nodeCount withCosts level (followedOf (hopWays targets) s.settled) s todo []) ∧
      ∃ turns, (serveNext targets)^[turns] (begun nodeCount withCosts source, [source]) = (s, todo))
    (fun s todo h => h.1.elim fun _ h => h.length_le) ?_ (nodeCount + 1) (begun nodeCount withCosts source) [source]
    (Nat.lt_succ_self _) ⟨⟨1, levels_begun hsource _ _⟩, 0, rfl⟩).2
  rintro s todo ⟨⟨level, h⟩, turns, hturns⟩
  obtain ⟨hlevels, hsettled, -⟩ := h.expandLevel htargets
  refine ⟨⟨⟨level + 1, hlevels⟩, todo.length + turns, ?_⟩, hsettled⟩
  have hlevel := iterate_serveNext targets todo s []
  rw [List.reverse_nil, List.append_nil] at hlevel
  rw [Function.iterate_add_apply, hturns, hlevel]

end

/-! ## By cost -/

section

variable [PathCost κ] {r : CostReading κ} {relationships : Nat → List (Nat × κ)}

/-- Take the first entry of the frontier. -/
def takeNext (relationships : Nat → List (Nat × κ)) :
    Search κ ρ × List (Tentative κ) → Search κ ρ × List (Tentative κ)
  | (s, []) => (s, [])
  | (s, entry :: frontier) => settleNext relationships entry s frontier

/-- **The frontier runs empty**, and then the search by cost is over. -/
theorem exists_turns_cheapestFirst [Reckoning ρ] (hadds : AddsUp r relationships source)
    (htargets : ∀ u, ∀ a ∈ relationships u, a.1 < nodeCount) (hsource : source < nodeCount) {count : Nat}
    (hcount : ∑ u ∈ Finset.range nodeCount, (relationships u).length ≤ count) :
    ∃ turns, (takeNext relationships)^[turns] (opened nodeCount source, [⟨PathCost.zero, source⟩]) =
      ((new nodeCount true : Search κ ρ).cheapestFirst relationships count source, []) := by
  refine (cheapestFirst_induction (ρ := ρ) (fun s frontier =>
      Settling r relationships source nodeCount (followedOf (costWays r relationships) s.settled) s frontier ∧
      ∃ turns, (takeNext relationships)^[turns] (opened nodeCount source, [⟨PathCost.zero, source⟩]) = (s, frontier))
    (fun s frontier h => ⟨h.1.sized, h.1.mark_iff, fun e he => lt_of_finite h.1.sized (h.1.reached e he).1⟩)
    htargets ?_ hcount ⟨settling_opened r relationships hsource _, 0, rfl⟩).1.2
  rintro s entry frontier ⟨h, turns, hturns⟩
  refine ⟨h.settleNext hadds htargets, turns + 1, ?_⟩
  rw [Function.iterate_succ_apply', hturns]
  rfl

end

end Search

end PackedGraph
