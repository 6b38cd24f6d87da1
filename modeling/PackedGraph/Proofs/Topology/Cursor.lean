import Mathlib.Data.List.Sort
import Mathlib.Data.List.TakeWhile
import PackedGraph.Proofs.Topology.MergeCursor

/-!
# Every cursor shows a list

A cursor of a graph, plain or merging, shows the ascending list of the targets that are not taken, and
every operation is an operation on that list.  A search may go target by target or by whole windows: the
answer and the cursor that is left are the same.

Main statements: `Cursor.next_of_shows`, `Cursor.peek_of_shows`, `Cursor.seek_of_shows`,
`Cursor.seekStepwise_eq_seek`, `Cursor.toList_of_shows` and `Cursor.shows_rebind`.
-/

namespace PackedGraph

/-- What is passed is closed downward: with a target, all smaller ones are passed. -/
def Downward (passed : Nat → Bool) : Prop :=
  ∀ a b, a ≤ b → passed b = true → passed a = true

/-- When the last target of a window is passed all of them are, and the rest is behind the window. -/
theorem RunCursor.shows_behind_window {passed : Nat → Bool} (hdown : Downward passed) {c : RunCursor}
    {rest : List Nat} (h : c.Shows rest) (hwindow : c.window ≠ []) (hpassed : passed c.last.toNat) :
    (∀ target ∈ c.window, passed target = true) ∧
      ∃ later, rest = c.window ++ later ∧ ({ c with window := [] } : RunCursor).Shows later := by
  obtain ⟨later, hpending, hrest⟩ := h
  refine ⟨fun target htarget => ?_, later.map UInt64.toNat, hrest, later, ?_, rfl⟩
  · have hlast := hpending.window_last hwindow
    exact hdown target _ (hlast ▸ hpending.window_sorted.rel_getLast htarget) hpassed
  · exact ⟨hpending.count, hpending.bytes, hpending.ascends, List.Pairwise.nil,
      fun hne => absurd rfl hne⟩

namespace Cursor

/-! ## What is shown -/

/-- The list of the targets that are not taken. -/
def Shows : Cursor → List Nat → Prop
  | single c, rest => c.Shows rest
  | merged c, rest => c.Shows rest

/-- The adjacencies that are read. -/
def sources : Cursor → List Adjacency
  | single c => [c.source]
  | merged c => c.sources

/-- The degrees of the node in all of them. -/
def degrees : Cursor → List Nat
  | single c => [c.degree]
  | merged c => c.degrees

theorem degree_eq (c : Cursor) : c.degree = c.degrees.sum := by
  cases c with
  | single c => simp [degree, degrees]
  | merged c => exact c.degree_eq

variable {c : Cursor} {rest : List Nat}

theorem pairwise_of_shows (h : c.Shows rest) : rest.Pairwise (· ≤ ·) := by
  cases c with
  | single c => exact RunCursor.pairwise_of_shows h
  | merged c =>
    obtain ⟨-, -, -, hsorted⟩ := h
    exact hsorted

theorem remaining_of_shows (h : c.Shows rest) : c.remaining = rest.length := by
  cases c with
  | single c => exact RunCursor.remaining_of_shows h
  | merged c => exact MergeCursor.remaining_of_shows h

/-- `peek` yields the head of what is shown and takes nothing. -/
theorem peek_of_shows (h : c.Shows rest) : c.peek.1 = rest.head? ∧ c.peek.2.Shows rest := by
  cases c with
  | single c => exact RunCursor.peek_of_shows h
  | merged c => exact ⟨MergeCursor.peek_of_shows h, h⟩

/-- `next` yields the head of what is shown and leaves the tail. -/
theorem next_of_shows (h : c.Shows rest) : c.next.1 = rest.head? ∧ c.next.2.Shows rest.tail := by
  cases c with
  | single c => exact RunCursor.next_of_shows h
  | merged c => exact MergeCursor.next_of_shows h

@[simp] theorem sources_peek (c : Cursor) : c.peek.2.sources = c.sources := by
  cases c with
  | single c => exact congrArg (fun source => [source]) c.source_peek
  | merged c => rfl

@[simp] theorem degrees_peek (c : Cursor) : c.peek.2.degrees = c.degrees := by
  cases c with
  | single c => exact congrArg (fun degree => [degree]) c.degree_peek
  | merged c => rfl

@[simp] theorem sources_next (c : Cursor) : c.next.2.sources = c.sources := by
  cases c with
  | single c => exact congrArg (fun source => [source]) c.source_next
  | merged c => exact c.sources_next

@[simp] theorem degrees_next (c : Cursor) : c.next.2.degrees = c.degrees := by
  cases c with
  | single c => exact congrArg (fun degree => [degree]) c.degree_next
  | merged c => exact c.degrees_next

/-! ## Searching target by target -/

theorem seekStepwise_succ (passed : Nat → Bool) (steps : Nat) (c : Cursor) :
    seekStepwise passed (steps + 1) c =
      match c.next.1 with
      | none => (none, c.next.2)
      | some target =>
        if passed target then seekStepwise passed steps c.next.2 else (some target, c.next.2) := by
  rw [seekStepwise]
  obtain ⟨found, left⟩ := c.next
  cases found <;> rfl

/-- A search takes what is passed and the target behind it. -/
theorem seekStepwise_of_shows (passed : Nat → Bool) :
    ∀ {rest : List Nat} {c : Cursor} {steps : Nat}, c.Shows rest → rest.length ≤ steps →
      (seekStepwise passed steps c).1 = (rest.dropWhile passed).head? ∧
        (seekStepwise passed steps c).2.Shows (rest.dropWhile passed).tail := by
  intro rest
  induction rest with
  | nil =>
    intro c steps h _
    obtain ⟨hnext, hshows⟩ := next_of_shows h
    cases steps with
    | zero => exact ⟨hnext, hshows⟩
    | succ steps =>
      rw [seekStepwise_succ, hnext]
      exact ⟨rfl, hshows⟩
  | cons target rest ih =>
    intro c steps h hsteps
    obtain ⟨hnext, hshows⟩ := next_of_shows h
    obtain ⟨steps, rfl⟩ : ∃ k, steps = k + 1 :=
      ⟨steps - 1, by rw [List.length_cons] at hsteps; omega⟩
    rw [seekStepwise_succ, hnext, List.head?_cons, List.dropWhile_cons]
    by_cases hpassed : passed target = true
    · simp only [hpassed, if_true]
      exact ih hshows (by rw [List.length_cons] at hsteps; omega)
    · simp only [hpassed, Bool.false_eq_true, if_false]
      exact ⟨rfl, hshows⟩

/-- More steps than targets make no difference. -/
theorem seekStepwise_steps (passed : Nat → Bool) :
    ∀ {rest : List Nat} {c : Cursor} {steps more : Nat}, c.Shows rest → rest.length ≤ steps →
      rest.length ≤ more → seekStepwise passed steps c = seekStepwise passed more c := by
  intro rest
  induction rest with
  | nil =>
    intro c steps more h _ _
    have hnone : ∀ steps, seekStepwise passed steps c = (none, c.next.2) := by
      have hnext := (next_of_shows h).1
      intro steps
      cases steps with
      | zero => exact Prod.ext hnext rfl
      | succ steps => rw [seekStepwise_succ, hnext]; rfl
    rw [hnone, hnone]
  | cons target rest ih =>
    intro c steps more h hsteps hmore
    obtain ⟨hnext, hshows⟩ := next_of_shows h
    rw [List.length_cons] at hsteps hmore
    obtain ⟨steps, rfl⟩ : ∃ k, steps = k + 1 := ⟨steps - 1, by omega⟩
    obtain ⟨more, rfl⟩ : ∃ k, more = k + 1 := ⟨more - 1, by omega⟩
    rw [seekStepwise_succ, seekStepwise_succ, hnext, List.head?_cons]
    simp only [ih hshows (Nat.le_of_succ_le_succ hsteps) (Nat.le_of_succ_le_succ hmore)]

theorem sources_seekStepwise (passed : Nat → Bool) (steps : Nat) :
    ∀ c : Cursor, (seekStepwise passed steps c).2.sources = c.sources := by
  induction steps with
  | zero => exact sources_next
  | succ steps ih =>
    intro c
    rw [seekStepwise_succ]
    split
    · exact sources_next c
    · split
      · rw [ih, sources_next]
      · exact sources_next c

theorem degrees_seekStepwise (passed : Nat → Bool) (steps : Nat) :
    ∀ c : Cursor, (seekStepwise passed steps c).2.degrees = c.degrees := by
  induction steps with
  | zero => exact degrees_next
  | succ steps ih =>
    intro c
    rw [seekStepwise_succ]
    split
    · exact degrees_next c
    · split
      · rw [ih, degrees_next]
      · exact degrees_next c

/-! ## Searching by windows -/

/-- Only the next step decides about a search. -/
theorem seekStepwise_congr {passed : Nat → Bool} {a b : Cursor} (h : a.next = b.next)
    (steps : Nat) :
    seekStepwise passed steps a = seekStepwise passed steps b := by
  cases steps with
  | zero => exact h
  | succ steps => rw [seekStepwise_succ, seekStepwise_succ, h]

theorem next_window {c : RunCursor} {target : Nat} {window : List Nat}
    (h : c.window = target :: window) :
    (single c).next = (some target, single { c with window := window }) := by
  have hkeep : c.ensureWindow = c := by
    rw [RunCursor.ensureWindow, if_neg (by simp [h])]
  simp only [next, RunCursor.next, hkeep, h]

/-- The passed targets in front of a window are taken one by one. -/
theorem seekStepwise_window {passed : Nat → Bool} (front : List Nat) :
    ∀ {c : RunCursor} {back : List Nat} (steps : Nat), c.window = front ++ back →
      (∀ target ∈ front, passed target = true) →
      seekStepwise passed (front.length + steps) (single c) =
        seekStepwise passed steps (single { c with window := back }) := by
  induction front with
  | nil =>
    intro c back steps hwindow _
    rw [List.length_nil, Nat.zero_add, ← List.nil_append back, ← hwindow]
  | cons target front ih =>
    intro c back steps hwindow hpassed
    have hnext := next_window hwindow
    rw [List.length_cons, Nat.add_right_comm, seekStepwise_succ, hnext]
    simp only [hpassed target List.mem_cons_self, if_true]
    exact ih (c := { c with window := front ++ back }) steps rfl
      fun other hother => hpassed other (List.mem_cons_of_mem _ hother)

/-- The first target that is not passed ends the search. -/
theorem seekStepwise_stop {passed : Nat → Bool} {c : RunCursor} {front others : List Nat}
    {target : Nat} (hwindow : c.window = front ++ target :: others)
    (hpassed : ∀ x ∈ front, passed x = true) (hstop : passed target = false) (steps : Nat) :
    seekStepwise passed (front.length + steps) (single c) =
      (some target, single { c with window := others }) := by
  rw [seekStepwise_window front steps hwindow hpassed]
  have hnext : (single { c with window := target :: others }).next =
      (some target, single { c with window := others }) := next_window rfl
  cases steps with
  | zero => exact hnext
  | succ steps =>
    rw [seekStepwise_succ, hnext]
    simp [hstop]

/-- Passing over whole windows finds what going target by target finds, and leaves the same cursor. -/
theorem seekStepwise_single {passed : Nat → Bool} (hdown : Downward passed) {c : RunCursor}
    {steps : Nat} (h : c.Shows rest) (hsteps : rest.length ≤ steps) :
    seekStepwise passed steps (single c) = ((c.seek passed).1, single (c.seek passed).2) := by
  fun_induction RunCursor.seek passed c generalizing rest steps with
  | case1 c hwindow hundecoded =>
    -- nothing is left, so one step finds nothing
    have hkeep : c.ensureWindow = c := by
      rw [RunCursor.ensureWindow, if_neg (by simp [hundecoded])]
    have hnext : (single c).next = (none, single c) := by
      simp only [next, RunCursor.next, hkeep, hwindow]
    cases steps with
    | zero => exact hnext
    | succ steps => rw [seekStepwise_succ, hnext]
  | case2 c hwindow hundecoded ih =>
    -- the next step decodes the window that the search looks at
    obtain ⟨hshows, hne⟩ := RunCursor.shows_refill h hwindow
    have hrefill : c.ensureWindow = c.refill := by
      rw [RunCursor.ensureWindow, if_pos ⟨by simp [hwindow], Nat.pos_of_ne_zero hundecoded⟩]
    have hkeep : c.refill.ensureWindow = c.refill := by
      rw [RunCursor.ensureWindow, if_neg (by simp [hne hundecoded])]
    rw [← ih hshows hsteps]
    refine seekStepwise_congr ?_ steps
    simp only [next, RunCursor.next, hrefill, hkeep]
  | case3 c first window hwindow hpassed ih =>
    obtain ⟨hall, later, hrest, hshows⟩ := RunCursor.shows_behind_window hdown h (by simp [hwindow]) hpassed
    rw [hrest, List.length_append] at hsteps
    obtain ⟨left, rfl⟩ : ∃ left, steps = c.window.length + left :=
      ⟨steps - c.window.length, by omega⟩
    rw [← ih hshows (show later.length ≤ left by omega)]
    exact seekStepwise_window c.window left (List.append_nil _).symm hall
  | case4 c first window hwindow hpassed hdrop =>
    -- the last target of the window is not passed
    obtain ⟨later, hpending, -⟩ := h
    have hne : c.window ≠ [] := by rw [hwindow]; simp
    have hlast := List.dropWhile_eq_nil_iff.mp hdrop _ (List.getLast_mem hne)
    rw [hpending.window_last hne] at hlast
    exact absurd hlast hpassed
  | case5 c first window hwindow hpassed target others hdrop =>
    obtain ⟨later, hpending, hrest⟩ := h
    have hsplit : c.window = c.window.takeWhile passed ++ target :: others := by
      rw [← hdrop, List.takeWhile_append_dropWhile]
    have hlength : (c.window.takeWhile passed).length ≤ rest.length := by
      rw [hrest, List.length_append]
      exact (List.takeWhile_sublist passed).length_le.trans (Nat.le_add_right _ _)
    have hstop : passed target = false := by
      have := List.head?_dropWhile_not passed c.window
      rw [hdrop] at this
      simpa using this
    obtain ⟨left, rfl⟩ : ∃ left, steps = (c.window.takeWhile passed).length + left :=
      ⟨steps - (c.window.takeWhile passed).length, by omega⟩
    exact seekStepwise_stop hsplit (fun x hx => List.mem_takeWhile_imp hx) hstop left

/-- A search by windows is a search target by target. -/
theorem seekStepwise_eq_seek {passed : Nat → Bool} (hdown : Downward passed) {steps : Nat}
    (h : c.Shows rest) (hsteps : rest.length ≤ steps) : seekStepwise passed steps c = c.seek passed := by
  cases c with
  | single c => exact seekStepwise_single hdown h hsteps
  | merged c =>
    exact seekStepwise_steps passed h hsteps (MergeCursor.remaining_of_shows h).ge

/-- A search takes what is passed and the target behind it. -/
theorem seek_of_shows {passed : Nat → Bool} (hdown : Downward passed) (h : c.Shows rest) :
    (c.seek passed).1 = (rest.dropWhile passed).head? ∧
      (c.seek passed).2.Shows (rest.dropWhile passed).tail := by
  rw [← seekStepwise_eq_seek hdown h le_rfl]
  exact seekStepwise_of_shows passed h le_rfl

theorem sources_seek {passed : Nat → Bool} (hdown : Downward passed) (h : c.Shows rest) :
    (c.seek passed).2.sources = c.sources := by
  rw [← seekStepwise_eq_seek hdown h le_rfl, sources_seekStepwise]

theorem degrees_seek {passed : Nat → Bool} (hdown : Downward passed) (h : c.Shows rest) :
    (c.seek passed).2.degrees = c.degrees := by
  rw [← seekStepwise_eq_seek hdown h le_rfl, degrees_seekStepwise]

theorem downward_le (bound : Nat) : Downward fun target => decide (target ≤ bound) := by
  intro a b hab hb
  rw [decide_eq_true_eq] at *
  exact hab.trans hb

theorem downward_lt (bound : Nat) : Downward fun target => decide (target < bound) := by
  intro a b hab hb
  rw [decide_eq_true_eq] at *
  exact lt_of_le_of_lt hab hb

/-! ## Taking all targets -/

theorem takeInto_of_shows (count : Nat) :
    ∀ {rest : List Nat} {c : Cursor} (taken : Array Nat), c.Shows rest →
      (takeInto taken count c).1 = taken ++ rest.take count ∧
        (takeInto taken count c).2.Shows (rest.drop count) := by
  induction count with
  | zero =>
    intro rest c taken h
    exact ⟨by simp [takeInto], h⟩
  | succ count ih =>
    intro rest c taken h
    obtain ⟨hnext, hshows⟩ := next_of_shows h
    rw [takeInto]
    cases rest with
    | nil =>
      rw [show c.next = (none, c.next.2) from Prod.ext hnext rfl]
      exact ⟨by simp, hshows⟩
    | cons target rest =>
      rw [show c.next = (some target, c.next.2) from Prod.ext hnext rfl]
      obtain ⟨htaken, hleft⟩ := ih (taken.push target) hshows
      exact ⟨by simp only [htaken]; apply Array.ext'; simp, hleft⟩

/-- All targets that are left make up what is shown. -/
theorem toList_of_shows (h : c.Shows rest) : c.toList = rest := by
  obtain ⟨htaken, -⟩ := takeInto_of_shows rest.length #[] h
  rw [toList, take, remaining_of_shows h, Nat.min_self]
  simp only [htaken]
  simp

/-! ## Binding -/

/-- The adjacencies hold the given rows, one list of rows for each of them. -/
def Reads (c : Cursor) (all : List (List (List UInt64))) : Prop :=
  List.Forall₂ Adjacency.Holds c.sources all

theorem reads_single {c : RunCursor} {all : List (List (List UInt64))} (h : (single c).Reads all) :
    ∃ rows, all = [rows] ∧ c.source.Holds rows := by
  obtain ⟨rows, others, hholds, hnil, rfl⟩ := List.forall₂_cons_left_iff.mp h
  exact ⟨rows, by rw [List.forall₂_nil_left_iff.mp hnil], hholds⟩

/-- A cursor that is bound to a node shows the merged row of the node, whatever it showed before. -/
theorem shows_rebind {all : List (List (List UInt64))} (h : c.Reads all) (node : Nat) :
    (c.rebind node).Shows (mergedRow all node) := by
  cases c with
  | merged c => exact MergeCursor.shows_rebind h node
  | single c =>
    obtain ⟨rows, rfl, hholds⟩ := reads_single h
    rw [mergedRow_singleton hholds.ascending]
    exact RunCursor.shows_rebind hholds node

@[simp] theorem sources_rebind (c : Cursor) (node : Nat) : (c.rebind node).sources = c.sources := by
  cases c with
  | single c => rfl
  | merged c => exact c.sources_rebind node

theorem degrees_rebind {all : List (List (List UInt64))} (h : c.Reads all) (node : Nat) :
    (c.rebind node).degrees = (rowsOf all node).map List.length := by
  cases c with
  | merged c => exact MergeCursor.degrees_rebind h node
  | single c =>
    obtain ⟨rows, rfl, hholds⟩ := reads_single h
    simp [rowsOf, rebind, degrees, RunCursor.degree_rebind hholds]

theorem length_mergedRow (all : List (List (List UInt64))) (node : Nat) :
    (mergedRow all node).length = ((rowsOf all node).map List.length).sum := by
  rw [mergedRow, List.length_mergeSort, List.length_flatten]

/-- Binding to a node that all adjacencies have is not refused. -/
theorem rebindChecked_eq {all : List (List (List UInt64))} (h : c.Reads all) {node : Nat}
    (hnode : ∀ rows ∈ all, node < rows.length) : c.rebindChecked node = (c.rebind node, true) := by
  cases c with
  | single c =>
    obtain ⟨rows, rfl, hholds⟩ := reads_single h
    simp only [rebindChecked, RunCursor.rebind?_eq hholds (hnode rows List.mem_cons_self), rebind]
  | merged c =>
    have hbind : ∀ cursor ∈ c.cursors.toList, cursor.rebind? node = some (cursor.rebind node) := by
      intro cursor hcursor
      have hforall : List.Forall₂ (fun cursor rows => Adjacency.Holds cursor.source rows)
          c.cursors.toList all := List.forall₂_map_left_iff.mp h
      obtain ⟨number, hlt, rfl⟩ := List.getElem_of_mem hcursor
      have hlt' : number < all.length := hforall.length_eq ▸ hlt
      exact RunCursor.rebind?_eq (hforall.get hlt hlt') (hnode _ (List.getElem_mem hlt'))
    simp only [rebindChecked, MergeCursor.rebindChecked_eq hbind, rebind]

end Cursor

end PackedGraph
