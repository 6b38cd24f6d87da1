import Mathlib.Data.List.Pairwise
import PackedGraph.Proofs.Topology.Adjacency
import PackedGraph.Topology.Cursor

/-!
# A cursor over one run shows a list

A run cursor *shows* a list when its window and the targets that are not decoded make up that list.
Decoding another window does not change what is shown, so the windows cannot be told from outside:
`next` takes the head of the list, and passing over whole windows is the same as taking targets one by
one.

Main statements: `RunCursor.shows_rebind`, `RunCursor.next_of_shows`, `RunCursor.peek_of_shows`,
`RunCursor.remaining_of_shows` and `RunCursor.seek_eq_stepwise`.
-/

namespace PackedGraph

/-- The row of a node, as the targets that a cursor yields; empty where the id names no node. -/
def rowOf (rows : List (List UInt64)) (node : Nat) : List Nat :=
  (rows[node]?.getD []).map UInt64.toNat

namespace RunCursor

/-! ## What is shown -/

/-- What is known of the targets that are not decoded, and of the window in front of them. -/
structure Pending (c : RunCursor) (later : List UInt64) : Prop where
  /-- So many of them are left. -/
  count : c.undecoded = later.length
  /-- Their gaps stand where decoding goes on. -/
  bytes : HoldsAt c.page c.offset (Varint.wordBytes (Varint.gapList c.last later))
  /-- They ascend from the target that was decoded last. -/
  ascends : Varint.AscendsFrom c.last later
  /-- The window ascends. -/
  window_sorted : c.window.Pairwise (· ≤ ·)
  /-- The target that was decoded last ends the window. -/
  window_last : ∀ h : c.window ≠ [], c.window.getLast h = c.last.toNat

/-- The list of the targets that are not taken. -/
def Shows (c : RunCursor) (rest : List Nat) : Prop :=
  ∃ later, c.Pending later ∧ rest = c.window ++ later.map UInt64.toNat

theorem remaining_of_shows {c : RunCursor} {rest : List Nat} (h : c.Shows rest) :
    c.remaining = rest.length := by
  obtain ⟨later, hpending, rfl⟩ := h
  rw [remaining, windowRemaining, hpending.count, List.length_append, List.length_map]

/-- The words of an ascending run ascend as numbers, from the bound on. -/
theorem pairwise_toNat {low : UInt64} {values : List UInt64} (h : Varint.AscendsFrom low values) :
    (low.toNat :: values.map UInt64.toNat).Pairwise (· ≤ ·) := by
  rw [← List.map_cons, List.pairwise_map]
  exact h.sorted.imp fun hle => UInt64.le_iff_toNat_le.mp hle

/-- What is shown ascends. -/
theorem pairwise_of_shows {c : RunCursor} {rest : List Nat} (h : c.Shows rest) :
    rest.Pairwise (· ≤ ·) := by
  obtain ⟨later, hpending, rfl⟩ := h
  obtain ⟨hlow, hlater⟩ := List.pairwise_cons.mp (pairwise_toNat hpending.ascends)
  refine List.pairwise_append.mpr ⟨hpending.window_sorted, hlater, ?_⟩
  intro a ha b hb
  have hne := List.ne_nil_of_mem ha
  have hlast := hpending.window_sorted.rel_getLast ha
  rw [hpending.window_last hne] at hlast
  exact hlast.trans (hlow b hb)

/-! ## Windows -/

@[simp] theorem source_refill (c : RunCursor) : c.refill.source = c.source := rfl

@[simp] theorem degree_refill (c : RunCursor) : c.refill.degree = c.degree := rfl

@[simp] theorem source_ensureWindow (c : RunCursor) : c.ensureWindow.source = c.source := by
  unfold ensureWindow
  split <;> rfl

@[simp] theorem degree_ensureWindow (c : RunCursor) : c.ensureWindow.degree = c.degree := by
  unfold ensureWindow
  split <;> rfl

/-- Decoding a window takes the targets in it from those that are not decoded. -/
theorem refill_eq {c : RunCursor} {first second : List UInt64} (h : c.Pending (first ++ second))
    (hfirst : first.length = min c.undecoded windowSize) :
    c.refill = { c with
      offset := c.offset + (Varint.wordBytes (Varint.gapList c.last first)).length
      undecoded := second.length
      window := first.map UInt64.toNat
      last := first.getLastD c.last } := by
  have hbytes := h.bytes
  rw [Varint.wordBytes_gapList_append h.ascends] at hbytes
  have hdecode := Varint.decodeGaps_of_holdsAt h.ascends.append.1 (holdsAt_append hbytes).1
  have hcount := h.count
  rw [List.length_append] at hcount
  simp only [refill, ← hfirst, hdecode, Option.getD_some]
  rw [show c.undecoded - first.length = second.length by omega]

/-- Decoding a window in place of a used one shows the same. -/
theorem pending_refill {c : RunCursor} {first second : List UInt64}
    (h : c.Pending (first ++ second))
    (hfirst : first.length = min c.undecoded windowSize) : c.refill.Pending second := by
  have hbytes := h.bytes
  rw [Varint.wordBytes_gapList_append h.ascends] at hbytes
  obtain ⟨hleft, hright⟩ := h.ascends.append
  rw [refill_eq h hfirst]
  refine ⟨rfl, (holdsAt_append hbytes).2, hright, ?_, ?_⟩
  · exact (List.pairwise_cons.mp (pairwise_toNat hleft)).2
  · intro hne
    have hfirst_ne : first ≠ [] := fun heq => hne (by rw [heq]; rfl)
    simp only [List.getLast_map]
    rw [List.getLastD_eq_getLast?, List.getLast?_eq_some_getLast hfirst_ne, Option.getD_some]

/-- A used window is replaced without anything being shown twice or left out, and the new one is not
empty when there was more to decode. -/
theorem shows_refill {c : RunCursor} {rest : List Nat} (h : c.Shows rest)
    (hwindow : c.window = []) :
    c.refill.Shows rest ∧ (c.undecoded ≠ 0 → c.refill.window ≠ []) := by
  obtain ⟨later, hpending, rfl⟩ := h
  have hcount := hpending.count
  set taken := min c.undecoded windowSize with htaken
  have hlength : (later.take taken).length = taken := by
    rw [List.length_take]
    omega
  have hsplit : c.Pending (later.take taken ++ later.drop taken) := by
    rwa [List.take_append_drop]
  refine ⟨⟨later.drop taken, pending_refill hsplit hlength, ?_⟩, ?_⟩
  · rw [refill_eq hsplit hlength, hwindow, List.nil_append, ← List.map_append,
      List.take_append_drop]
  · intro hpos
    have hsize : windowSize = 64 := rfl
    rw [refill_eq hsplit hlength, ← List.length_pos_iff_ne_nil, List.length_map, hlength]
    omega

/-- With a window ensured, an empty window means that nothing is left. -/
theorem shows_ensureWindow {c : RunCursor} {rest : List Nat} (h : c.Shows rest) :
    c.ensureWindow.Shows rest ∧ c.ensureWindow.window.head? = rest.head? := by
  have hhead : ∀ {d : RunCursor}, d.Shows rest → (d.window = [] → d.undecoded = 0) →
      d.window.head? = rest.head? := by
    rintro d ⟨later, hpending, rfl⟩ hempty
    cases hw : d.window with
    | nil =>
      have hlater : later = [] := by
        refine List.eq_nil_of_length_eq_zero ?_
        rw [← hpending.count, hempty hw]
      rw [hlater]
      rfl
    | cons => rfl
  unfold ensureWindow
  split
  case isTrue hneed =>
    obtain ⟨hshows, hne⟩ := shows_refill h (List.isEmpty_iff.mp hneed.1)
    exact ⟨hshows, hhead hshows fun hw => absurd hw (hne (Nat.pos_iff_ne_zero.mp hneed.2))⟩
  case isFalse hneed =>
    refine ⟨h, hhead h fun hw => ?_⟩
    by_contra hpos
    exact hneed ⟨List.isEmpty_iff.mpr hw, Nat.pos_of_ne_zero hpos⟩

/-- The first target of a window can be taken. -/
theorem shows_window_tail {c : RunCursor} {target : Nat} {window rest : List Nat}
    (h : c.Shows rest) (hwindow : c.window = target :: window) :
    ({ c with window := window } : RunCursor).Shows rest.tail := by
  obtain ⟨later, ⟨hcount, hbytes, hascends, hsorted, hlast⟩, rfl⟩ := h
  rw [hwindow] at hsorted
  refine ⟨later, ⟨hcount, hbytes, hascends, (List.pairwise_cons.mp hsorted).2, fun hne => ?_⟩, ?_⟩
  · rw [← hlast (by rw [hwindow]; simp)]
    simp only [hwindow]
    rw [List.getLast_cons hne]
  · simp [hwindow]

/-! ## Operations -/

/-- `peek` yields the head of what is shown and takes nothing. -/
theorem peek_of_shows {c : RunCursor} {rest : List Nat} (h : c.Shows rest) :
    c.peek.1 = rest.head? ∧ c.peek.2.Shows rest :=
  ⟨(shows_ensureWindow h).2, (shows_ensureWindow h).1⟩

/-- `next` yields the head of what is shown and leaves the tail. -/
theorem next_of_shows {c : RunCursor} {rest : List Nat} (h : c.Shows rest) :
    c.next.1 = rest.head? ∧ c.next.2.Shows rest.tail := by
  obtain ⟨hshows, hhead⟩ := shows_ensureWindow h
  simp only [next]
  split
  case h_1 hwindow =>
    rw [hwindow] at hhead
    have hrest : rest = [] := List.head?_eq_none_iff.mp hhead.symm
    exact ⟨hhead, by rw [hrest] at hshows ⊢; exact hshows⟩
  case h_2 target window hwindow =>
    rw [hwindow] at hhead
    exact ⟨hhead, shows_window_tail hshows hwindow⟩

@[simp] theorem source_peek (c : RunCursor) : c.peek.2.source = c.source := source_ensureWindow c

@[simp] theorem degree_peek (c : RunCursor) : c.peek.2.degree = c.degree := degree_ensureWindow c

@[simp] theorem source_next (c : RunCursor) : c.next.2.source = c.source := by
  simp only [next]
  split <;> simp

@[simp] theorem degree_next (c : RunCursor) : c.next.2.degree = c.degree := by
  simp only [next]
  split <;> simp

/-- A cursor bound to no node shows nothing. -/
theorem shows_unbound (source : Adjacency) : (unbound source).Shows [] :=
  ⟨[], ⟨rfl, holdsAt_nil _ _, ⟨List.pairwise_singleton _ _, List.not_mem_nil⟩, List.Pairwise.nil,
    fun h => absurd rfl h⟩, rfl⟩

/-- A cursor that is bound to a node shows the node's row, whatever it showed before. -/
theorem shows_rebind {c : RunCursor} {rows : List (List UInt64)} (h : c.source.Holds rows)
    (node : Nat) :
    (c.rebind node).Shows (rowOf rows node) := by
  rw [rowOf]
  cases hrow : rows[node]? with
  | none =>
    have hdegree : c.source.degree node = 0 := by
      rw [h.degree_eq, hrow]
      rfl
    refine ⟨[], ⟨?_, holdsAt_nil _ _, ⟨List.pairwise_singleton _ _, List.not_mem_nil⟩,
      List.Pairwise.nil, fun hne => absurd rfl hne⟩, rfl⟩
    exact hdegree
  | some row =>
    have hdegree : c.source.degree node = row.length := by
      rw [h.degree_eq, hrow]
      rfl
    refine ⟨row, ⟨hdegree, ?_, h.ascending row (List.mem_of_getElem? hrow), List.Pairwise.nil,
      fun hne => absurd rfl hne⟩, rfl⟩
    by_cases hne : row = []
    · rw [hne]
      exact holdsAt_nil _ _
    · exact h.located node row hrow hne

/-- Binding forgets everything but the adjacency. -/
theorem rebind_congr {a b : RunCursor} (h : a.source = b.source) (node : Nat) :
    a.rebind node = b.rebind node := by
  rw [rebind, rebind, h]

theorem degree_rebind {c : RunCursor} {rows : List (List UInt64)} (h : c.source.Holds rows)
    (node : Nat) :
    (c.rebind node).degree = (rowOf rows node).length := by
  rw [rowOf, List.length_map]
  exact h.degree_eq node

@[simp] theorem source_rebind (c : RunCursor) (node : Nat) : (c.rebind node).source = c.source := rfl

/-- Binding to a node is not refused. -/
theorem rebind?_eq {c : RunCursor} {rows : List (List UInt64)} (h : c.source.Holds rows)
    {node : Nat} (hnode : node < rows.length) : c.rebind? node = some (c.rebind node) := by
  rw [rebind?, if_pos ((h.covers_iff node).mpr hnode)]

end RunCursor

end PackedGraph
