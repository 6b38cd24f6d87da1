import PackedGraph.Topology.Adjacency

/-!
# Cursors

A cursor reads the ascending targets of one node, each once, and can be bound to another node at any
time.  Targets are decoded in windows, so a search for a large target passes over a whole window by
looking at its last target alone.

All cursors offer the same operations.  `next` takes the next target and `peek` shows it;
`skipUntil t` takes targets up to and including the first above `t`, `advance t` up to and including
the first that is at least `t`, and both yield that target, or nothing when there is none.
-/

namespace PackedGraph

/-- Targets decoded at a time. -/
def windowSize : Nat := 64

/-- A cursor over one compressed adjacency. -/
structure RunCursor where
  /-- The adjacency that is read. -/
  source : Adjacency
  /-- The page of the node's run. -/
  page : Page
  /-- The offset of the first byte that is not decoded. -/
  offset : Nat
  /-- The degree of the node. -/
  degree : Nat
  /-- How many targets are not decoded. -/
  undecoded : Nat
  /-- The decoded targets that are not taken. -/
  window : List Nat
  /-- The target decoded last, from which the next gap counts. -/
  last : UInt64
  deriving Inhabited

namespace RunCursor

/-- A cursor bound to no node. -/
def unbound (source : Adjacency) : RunCursor := ⟨source, #[], 0, 0, 0, [], 0⟩

/-- Bind the cursor to a node, forgetting where it was. -/
def rebind (c : RunCursor) (node : Nat) : RunCursor :=
  let (page, offset) := c.source.locate node
  let degree := c.source.degree node
  ⟨c.source, page, offset, degree, degree, [], 0⟩

/-- Bind the cursor to a node, refused where the id names none. -/
def rebind? (c : RunCursor) (node : Nat) : Option RunCursor :=
  if c.source.covers node then some (c.rebind node) else none

/-- Targets that are decoded and not taken. -/
def windowRemaining (c : RunCursor) : Nat := c.window.length

/-- Targets that are not taken. -/
def remaining (c : RunCursor) : Nat := c.windowRemaining + c.undecoded

/-- Decode the next window in place of the present one. -/
def refill (c : RunCursor) : RunCursor :=
  let count := min c.undecoded windowSize
  let (targets, next) := (Varint.decodeGaps c.page c.offset c.last count).getD ([], c.offset)
  { c with
    offset := next
    undecoded := c.undecoded - count
    window := targets.map UInt64.toNat
    last := targets.getLastD c.last }

/-- Decode a window if the present one is used up and there is more to decode. -/
def ensureWindow (c : RunCursor) : RunCursor :=
  if c.window.isEmpty ∧ 0 < c.undecoded then c.refill else c

/-- The next target, which is not taken. -/
def peek (c : RunCursor) : Option Nat × RunCursor :=
  let c := c.ensureWindow
  (c.window.head?, c)

/-- Take the next target. -/
def next (c : RunCursor) : Option Nat × RunCursor :=
  let c := c.ensureWindow
  match c.window with
  | [] => (none, c)
  | target :: rest => (some target, { c with window := rest })

theorem undecoded_refill_lt (c : RunCursor) (h : c.undecoded ≠ 0) :
    c.refill.undecoded < c.undecoded := by
  have : c.refill.undecoded = c.undecoded - min c.undecoded windowSize := rfl
  have : windowSize = 64 := rfl
  omega

/-- Take targets up to and including the first that is not `passed`, where a target is passed when
all smaller ones are: a window whose last target is passed is dropped whole. -/
def seek (passed : Nat → Bool) (c : RunCursor) : Option Nat × RunCursor :=
  match _hw : c.window with
  | [] => if _h : c.undecoded = 0 then (none, c) else seek passed c.refill
  | _ :: _ =>
    if passed c.last.toNat then seek passed { c with window := [] }
    else match c.window.dropWhile passed with
      | [] => (none, { c with window := [] })
      | target :: rest => (some target, { c with window := rest })
termination_by (c.undecoded, c.window.length)
decreasing_by
  · exact Prod.Lex.left _ _ (undecoded_refill_lt c _h)
  · exact Prod.Lex.right _ (by simp [_hw])

/-- Take targets up to and including the first above a bound. -/
def skipUntil (c : RunCursor) (bound : Nat) : Option Nat × RunCursor :=
  c.seek fun target => decide (target ≤ bound)

/-- Take targets up to and including the first that is at least a bound. -/
def advance (c : RunCursor) (bound : Nat) : Option Nat × RunCursor :=
  c.seek fun target => decide (target < bound)

end RunCursor

/-! ## Merging several cursors -/

/-- A place in an ordered list of heads: a target and the number of the cursor that offers it. -/
abbrev Head := Nat × Nat

/-- Whether one head comes before another: smaller targets first, and of equal ones the cursor with
the smaller number. -/
def Head.before (a b : Head) : Bool := decide (a.1 < b.1) || (a.1 == b.1 && decide (a.2 ≤ b.2))

/-- Put a head where it belongs in an ordered list of heads. -/
def Head.insert (head : Head) : List Head → List Head
  | [] => [head]
  | other :: rest =>
    if Head.before head other then head :: other :: rest else other :: Head.insert head rest

/-- A cursor that merges the targets of one node in several adjacencies into one ascending sequence. -/
structure MergeCursor where
  /-- One cursor for each adjacency. -/
  cursors : Array RunCursor
  /-- The next target of every cursor that has one, in order. -/
  heads : List Head
  deriving Inhabited

namespace MergeCursor

/-- Look at the cursor with a given number and put its next target among the heads. -/
def offer (c : MergeCursor) (number : Nat) (cursor : RunCursor) : MergeCursor :=
  let (head, cursor) := cursor.peek
  { cursors := c.cursors.setIfInBounds number cursor
    heads := match head with
      | some target => Head.insert (target, number) c.heads
      | none => c.heads }

/-- Merge cursors that stand where they stand. -/
def ofCursors (cursors : Array RunCursor) : MergeCursor :=
  cursors.toList.zipIdx.foldl (fun c (cursor, number) => c.offer number cursor) ⟨cursors, []⟩

/-- Bind all cursors to a node.  Where the id names no node in one of the adjacencies, the cursors in
front of it are bound, the others stay, and the operation counts as refused. -/
def rebindFrom (node : Nat) : List (RunCursor × Nat) → MergeCursor → MergeCursor × Bool
  | [], c => (c, true)
  | (cursor, number) :: rest, c =>
    match cursor.rebind? node with
    | none => (c, false)
    | some cursor => rebindFrom node rest (c.offer number cursor)

/-- Bind all cursors to a node; whether the id names a node in all the adjacencies. -/
def rebindChecked (c : MergeCursor) (node : Nat) : MergeCursor × Bool :=
  rebindFrom node c.cursors.toList.zipIdx { c with heads := [] }

/-- Bind all cursors to a node. -/
def rebind (c : MergeCursor) (node : Nat) : MergeCursor :=
  ofCursors (c.cursors.map fun cursor => cursor.rebind node)

/-- The degrees of the node together. -/
def degree (c : MergeCursor) : Nat := c.cursors.foldl (fun total cursor => total + cursor.degree) 0

/-- Targets that are not taken. -/
def remaining (c : MergeCursor) : Nat :=
  c.cursors.foldl (fun total cursor => total + cursor.remaining) 0

/-- The smallest target that is not taken. -/
def peek (c : MergeCursor) : Option Nat := c.heads.head?.map Prod.fst

/-- Take the smallest target; its cursor then offers the one behind it. -/
def next (c : MergeCursor) : Option Nat × MergeCursor :=
  match c.heads with
  | [] => (none, c)
  | (target, number) :: rest =>
    match c.cursors[number]? with
    | none => (some target, { c with heads := rest })
    | some cursor =>
      let (_, cursor) := cursor.next
      (some target, { c with heads := rest }.offer number cursor)

/-- What is to be reported where the cursor that offers the smallest target is not ascending: behind
that target it has a smaller one, and everything merged with it would be wrong. -/
def disorder? (c : MergeCursor) : Option String :=
  match c.heads with
  | [] => none
  | (target, number) :: _ =>
    (c.cursors[number]?).bind fun cursor =>
      cursor.next.2.peek.1.bind fun following =>
        if following < target then
          some ("sub-cursor " ++ toString number ++ " is not sorted: " ++ toString following
            ++ " follows " ++ toString target)
        else none

end MergeCursor

/-! ## The cursor of a graph -/

/-- A plain cursor for one adjacency, a merging one for any other number of them. -/
inductive Cursor where
  | single (cursor : RunCursor)
  | merged (cursor : MergeCursor)
  deriving Inhabited

namespace Cursor

/-- A cursor over adjacencies, bound to no node. -/
def unbound : List Adjacency → Cursor
  | [only] => .single (.unbound only)
  | sources => .merged (.ofCursors (sources.map RunCursor.unbound).toArray)

/-- Bind the cursor to a node. -/
def rebind (c : Cursor) (node : Nat) : Cursor :=
  match c with
  | single cursor => single (cursor.rebind node)
  | merged cursor => merged (cursor.rebind node)

/-- Bind the cursor to a node; whether the id names a node everywhere. -/
def rebindChecked (c : Cursor) (node : Nat) : Cursor × Bool :=
  match c with
  | single cursor =>
    match cursor.rebind? node with
    | some cursor => (single cursor, true)
    | none => (single cursor, false)
  | merged cursor =>
    let (cursor, bound) := cursor.rebindChecked node
    (merged cursor, bound)

/-- The degree of the node. -/
def degree : Cursor → Nat
  | single cursor => cursor.degree
  | merged cursor => cursor.degree

/-- Targets that are not taken. -/
def remaining : Cursor → Nat
  | single cursor => cursor.remaining
  | merged cursor => cursor.remaining

/-- The next target, which is not taken. -/
def peek : Cursor → Option Nat × Cursor
  | single cursor =>
    let (head, cursor) := cursor.peek
    (head, single cursor)
  | merged cursor => (cursor.peek, merged cursor)

/-- Take the next target. -/
def next : Cursor → Option Nat × Cursor
  | single cursor =>
    let (target, cursor) := cursor.next
    (target, single cursor)
  | merged cursor =>
    let (target, cursor) := cursor.next
    (target, merged cursor)

/-- Take targets one by one up to and including the first that is not `passed`, at most so many. -/
def seekStepwise (passed : Nat → Bool) : Nat → Cursor → Option Nat × Cursor
  | 0, c => c.next
  | steps + 1, c =>
    match c.next with
    | (none, c) => (none, c)
    | (some target, c) => if passed target then seekStepwise passed steps c else (some target, c)

/-- Take targets up to and including the first that is not `passed`, by windows where the cursor has
them. -/
def seek (passed : Nat → Bool) (c : Cursor) : Option Nat × Cursor :=
  match c with
  | single cursor =>
    let (target, cursor) := cursor.seek passed
    (target, single cursor)
  | merged cursor => seekStepwise passed cursor.remaining (merged cursor)

/-- Take targets up to and including the first above a bound. -/
def skipUntil (c : Cursor) (bound : Nat) : Option Nat × Cursor :=
  c.seek fun target => decide (target ≤ bound)

/-- Take targets up to and including the first that is at least a bound. -/
def advance (c : Cursor) (bound : Nat) : Option Nat × Cursor :=
  c.seek fun target => decide (target < bound)

/-- Append at most so many targets to those taken so far. -/
def takeInto (taken : Array Nat) : Nat → Cursor → Array Nat × Cursor
  | 0, c => (taken, c)
  | count + 1, c =>
    match c.next with
    | (none, c) => (taken, c)
    | (some target, c) => takeInto (taken.push target) count c

/-- Take so many targets, or all that are left. -/
def take (c : Cursor) (count : Nat) : List Nat × Cursor :=
  let (taken, c) := takeInto #[] (min count c.remaining) c
  (taken.toList, c)

/-- All targets that are left. -/
def toList (c : Cursor) : List Nat := (c.take c.remaining).1

/-! ## Two cursors side by side -/

/-- Collect the targets that two cursors have in common, each having just yielded a target: the one
that is behind catches up.  The number of steps bounds the targets that are left in both. -/
def meet :
    Nat → Option Nat → Option Nat → Cursor → Cursor → Array Nat → Array Nat × Cursor × Cursor
  | steps + 1, some a, some b, left, right, found =>
    if a = b then
      let (nextA, left) := left.next
      let (nextB, right) := right.next
      meet steps nextA nextB left right (found.push a)
    else if a < b then
      let (a, left) := left.advance b
      meet steps a (some b) left right found
    else
      let (b, right) := right.advance a
      meet steps (some a) b left right found
  | _, _, _, left, right, found => (found, left, right)

/-- How many targets two cursors still have in common, equal ones being paired off one by one. -/
def sharedCount (left right : Cursor) : Nat :=
  let steps := left.remaining + right.remaining
  let (a, left) := left.next
  let (b, right) := right.next
  (meet steps a b left right #[]).1.size

end Cursor

end PackedGraph
