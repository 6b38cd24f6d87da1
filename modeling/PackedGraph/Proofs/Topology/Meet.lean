import Mathlib.Data.Finset.Card
import Mathlib.Data.List.Lattice
import Mathlib.Logic.Function.Iterate
import PackedGraph.Proofs.Topology.Cursor

/-!
# Common targets of two cursors

Two cursors side by side meet at every target that both have: the one that is behind is moved forward to
the other.  A `Meeting` takes its turns one by one.  Each turn takes targets from what is left and loses no
common one, so that after some turns one cursor has run out; what is collected then is the intersection of
the two lists, where equal targets are paired off one by one, and both cursors read the same adjacencies as
before.

Main statements: `Meeting.Stands.turn` and `Meeting.Stands.iterate_turn`; `Cursor.meet_of_shows` and
`Cursor.sharedCount_of_shows` for the loops that count their steps.
-/

namespace PackedGraph

/-- Where one side repeats no value the intersection is that of the sets. -/
theorem length_bagInter_of_nodup {xs ys : List Nat} (h : xs.Nodup ∨ ys.Nodup) :
    (xs.bagInter ys).length = (xs.toFinset ∩ ys.toFinset).card := by
  have hnodup : (xs.bagInter ys).Nodup := h.elim List.Nodup.bagInter_right List.Nodup.bagInter_left
  rw [← List.toFinset_card_of_nodup hnodup]
  congr 1
  ext x
  rw [List.mem_toFinset, List.mem_bagInter, Finset.mem_inter, List.mem_toFinset, List.mem_toFinset]

/-- In an ascending list the targets behind those below a bound are those that are not below it. -/
theorem dropWhile_eq_filter {targets : List Nat} {passed : Nat → Bool} (hdown : Downward passed)
    (h : targets.Pairwise (· ≤ ·)) : targets.dropWhile passed = targets.filter fun t => !passed t := by
  induction targets with
  | nil => rfl
  | cons a rest ih =>
    obtain ⟨hhead, hrest⟩ := List.pairwise_cons.mp h
    by_cases ha : passed a = true
    · rw [List.dropWhile_cons_of_pos ha, ih hrest, List.filter_cons_of_neg (by simp [ha])]
    · have hall : ∀ b ∈ a :: rest, (!passed b) = true := by
        intro b hb
        rcases List.mem_cons.mp hb with rfl | hb
        · simpa using ha
        · have hb' : passed b ≠ true := fun hpassed => ha (hdown a b (hhead b hb) hpassed)
          simpa using hb'
      rw [List.dropWhile_cons_of_neg ha, List.filter_eq_self.mpr hall]

/-- Targets below everything in the other list are in no intersection with it. -/
theorem dropWhile_bagInter {left right : List Nat} {bound : Nat} (h : ∀ target ∈ right, bound ≤ target) :
    (left.dropWhile fun target => decide (target < bound)).bagInter right = left.bagInter right := by
  induction left with
  | nil => rfl
  | cons a rest ih =>
    by_cases ha : a < bound
    · have habsent : a ∉ right := fun hmem => Nat.not_le.mpr ha (h a hmem)
      rw [List.dropWhile_cons_of_pos (by simpa using ha), ih, List.cons_bagInter_of_not_mem _ habsent]
    · rw [List.dropWhile_cons_of_neg (by simpa using ha)]

theorem bagInter_dropWhile {left right : List Nat} {bound : Nat} (h : ∀ target ∈ left, bound ≤ target) :
    left.bagInter (right.dropWhile fun target => decide (target < bound)) = left.bagInter right := by
  induction right with
  | nil => rfl
  | cons b rest ih =>
    by_cases hb : b < bound
    · have habsent : b ∉ left := fun hmem => Nat.not_le.mpr hb (h b hmem)
      rw [List.dropWhile_cons_of_pos (by simpa using hb), ih, List.bagInter_cons_of_not_mem _ habsent]
    · rw [List.dropWhile_cons_of_neg (by simpa using hb)]

/-- In two ascending lists a first target below the other first is in no intersection, and with it all that
are below. -/
theorem dropWhile_bagInter_cons {a b : Nat} {xs ys : List Nat} (hlt : a < b)
    (hys : (b :: ys).Pairwise (· ≤ ·)) :
    (xs.dropWhile fun target => decide (target < b)).bagInter (b :: ys) = (a :: xs).bagInter (b :: ys) := by
  have hleast := List.forall_mem_cons.mpr ⟨Nat.le_refl b, (List.pairwise_cons.mp hys).1⟩
  rw [← @dropWhile_bagInter (a :: xs) _ _ hleast, List.dropWhile_cons_of_pos (by simpa using hlt)]

theorem bagInter_dropWhile_cons {a b : Nat} {xs ys : List Nat} (hlt : b < a)
    (hxs : (a :: xs).Pairwise (· ≤ ·)) :
    (a :: xs).bagInter (ys.dropWhile fun target => decide (target < a)) = (a :: xs).bagInter (b :: ys) := by
  have hleast := List.forall_mem_cons.mpr ⟨Nat.le_refl a, (List.pairwise_cons.mp hxs).1⟩
  rw [← @bagInter_dropWhile _ (b :: ys) _ hleast, List.dropWhile_cons_of_pos (by simpa using hlt)]

namespace Cursor

/-- An advance leaves a cursor in front of the targets that are not below the bound. -/
theorem advance_of_shows {c : Cursor} {rest : List Nat} (h : c.Shows rest) (bound : Nat) :
    (c.advance bound).1 = (rest.dropWhile fun target => decide (target < bound)).head? ∧
      (c.advance bound).2.Shows (rest.dropWhile fun target => decide (target < bound)).tail ∧
      (c.advance bound).2.sources = c.sources :=
  have hseek := seek_of_shows (downward_lt bound) h
  ⟨hseek.1, hseek.2, sources_seek (downward_lt bound) h⟩

/-- A skip leaves a cursor in front of the targets above the bound. -/
theorem skipUntil_of_shows {c : Cursor} {rest : List Nat} (h : c.Shows rest) (bound : Nat) :
    (c.skipUntil bound).1 = (rest.filter fun target => decide (bound < target)).head? ∧
      (c.skipUntil bound).2.Shows (rest.filter fun target => decide (bound < target)).tail ∧
      (c.skipUntil bound).2.sources = c.sources := by
  have hfilter : (rest.dropWhile fun target => decide (target ≤ bound)) =
      rest.filter fun target => decide (bound < target) := by
    rw [dropWhile_eq_filter (downward_le bound) (pairwise_of_shows h)]
    exact List.filter_congr fun target _ => by rw [← decide_not, decide_eq_decide, Nat.not_le]
  have hseek := seek_of_shows (downward_le bound) h
  rw [hfilter] at hseek
  exact ⟨hseek.1, hseek.2, sources_seek (downward_le bound) h⟩

end Cursor

/-! ## Turn by turn -/

/-- Two cursors side by side, with the target that each has yielded last and the targets found in both. -/
structure Meeting where
  /-- What the left cursor has yielded last. -/
  a : Option Nat
  /-- What the right cursor has yielded last. -/
  b : Option Nat
  /-- The left cursor. -/
  left : Cursor
  /-- The right cursor. -/
  right : Cursor
  /-- The common targets so far. -/
  found : Array Nat

namespace Meeting

/-- The cursor that is behind catches up with the other; once one has run out, nothing happens. -/
def turn (m : Meeting) : Meeting :=
  match m.a, m.b with
  | some a, some b =>
    if a = b then ⟨m.left.next.1, m.right.next.1, m.left.next.2, m.right.next.2, m.found.push a⟩
    else if a < b then { m with a := (m.left.advance b).1, left := (m.left.advance b).2 }
    else { m with b := (m.right.advance a).1, right := (m.right.advance a).2 }
  | _, _ => m

/-- Whether one of the cursors has run out. -/
def ended (m : Meeting) : Bool := m.a.isNone || m.b.isNone

/-- Both cursors yield their first targets. -/
def start (left right : Cursor) : Meeting := ⟨left.next.1, right.next.1, left.next.2, right.next.2, #[]⟩

theorem ended_eq_false_iff {m : Meeting} : m.ended = false ↔ ∃ a b, m.a = some a ∧ m.b = some b := by
  rw [ended, Bool.or_eq_false_iff, Option.isNone_eq_false_iff, Option.isNone_eq_false_iff, Option.isSome_iff_exists,
    Option.isSome_iff_exists]
  exact ⟨fun ⟨⟨a, ha⟩, b, hb⟩ => ⟨a, b, ha, hb⟩, fun ⟨a, b, ha, hb⟩ => ⟨⟨a, ha⟩, b, hb⟩⟩

theorem turn_of_ended {m : Meeting} (h : m.ended = true) : m.turn = m := by
  rw [turn]
  split
  case h_1 a b ha hb => rw [ended, ha, hb] at h; exact absurd h Bool.false_ne_true
  case h_2 => rfl

/-- Counting the steps changes nothing in the turns that are taken. -/
theorem meet_eq_iterate (steps : Nat) (m : Meeting) :
    Cursor.meet steps m.a m.b m.left m.right m.found =
      ((turn^[steps] m).found, (turn^[steps] m).left, (turn^[steps] m).right) := by
  induction steps generalizing m with
  | zero => rfl
  | succ steps ih =>
    rw [Function.iterate_succ_apply, ← ih]
    obtain ⟨a, b, left, right, found⟩ := m
    cases a with
    | none => cases steps <;> rfl
    | some a =>
      cases b with
      | none => cases steps <;> rfl
      | some b =>
        simp only [Cursor.meet, turn]
        split
        · rfl
        · split <;> rfl

/-- What each cursor has yielded last is the first of what was left, and it shows the rest. -/
structure Stands (m : Meeting) (xs ys : List Nat) : Prop where
  /-- The left cursor has yielded the first. -/
  a_eq : m.a = xs.head?
  /-- So has the right one. -/
  b_eq : m.b = ys.head?
  /-- The left cursor shows the others. -/
  left : m.left.Shows xs.tail
  /-- So does the right one. -/
  right : m.right.Shows ys.tail
  /-- They ascend on the left. -/
  left_sorted : xs.Pairwise (· ≤ ·)
  /-- They ascend on the right. -/
  right_sorted : ys.Pairwise (· ≤ ·)

variable {m : Meeting} {xs ys : List Nat}

/-- A turn takes some targets and loses no common one. -/
theorem Stands.turn (h : m.Stands xs ys) (hgoes : m.ended = false) :
    ∃ xs' ys', m.turn.Stands xs' ys' ∧ xs'.length + ys'.length < xs.length + ys.length ∧
      m.turn.found.toList ++ xs'.bagInter ys' = m.found.toList ++ xs.bagInter ys ∧
      m.turn.left.sources = m.left.sources ∧ m.turn.right.sources = m.right.sources := by
  obtain ⟨a, b, ha, hb⟩ := ended_eq_false_iff.mp hgoes
  obtain ⟨ha', hb', hleft, hright, hxs, hys⟩ := h
  obtain ⟨xs, rfl⟩ := List.head?_eq_some_iff.mp (ha'.symm.trans ha)
  obtain ⟨ys, rfl⟩ := List.head?_eq_some_iff.mp (hb'.symm.trans hb)
  rw [List.tail_cons] at hleft hright
  have hxs' := (List.pairwise_cons.mp hxs).2
  have hys' := (List.pairwise_cons.mp hys).2
  simp only [Meeting.turn, ha, hb]
  rcases Nat.lt_trichotomy a b with hlt | rfl | hgt
  · -- the left cursor is behind
    rw [if_neg (Nat.ne_of_lt hlt), if_pos hlt]
    obtain ⟨hnext, hshows, hsources⟩ := Cursor.advance_of_shows hleft b
    have hsublist := List.dropWhile_sublist (l := xs) fun target => decide (target < b)
    refine ⟨_, b :: ys, ⟨hnext, rfl, hshows, hright, hxs'.sublist hsublist, hys⟩, ?_, ?_, hsources, rfl⟩
    · have := hsublist.length_le
      simp only [List.length_cons]
      omega
    · rw [dropWhile_bagInter_cons hlt hys]
  · -- both have the same target
    rw [if_pos rfl]
    obtain ⟨hnextA, hshowsA⟩ := Cursor.next_of_shows hleft
    obtain ⟨hnextB, hshowsB⟩ := Cursor.next_of_shows hright
    refine ⟨xs, ys, ⟨hnextA, hnextB, hshowsA, hshowsB, hxs', hys'⟩, ?_, ?_, Cursor.sources_next _,
      Cursor.sources_next _⟩
    · simp only [List.length_cons]
      omega
    · rw [Array.toList_push, List.append_assoc, List.cons_bagInter_of_mem _ List.mem_cons_self, List.erase_cons_head]
      rfl
  · -- the right cursor is behind
    rw [if_neg (Nat.ne_of_gt hgt), if_neg (Nat.not_lt.mpr hgt.le)]
    obtain ⟨hnext, hshows, hsources⟩ := Cursor.advance_of_shows hright a
    have hsublist := List.dropWhile_sublist (l := ys) fun target => decide (target < a)
    refine ⟨a :: xs, _, ⟨rfl, hnext, hleft, hshows, hxs, hys'.sublist hsublist⟩, ?_, ?_, rfl, hsources⟩
    · have := hsublist.length_le
      simp only [List.length_cons]
      omega
    · rw [bagInter_dropWhile_cons hgt hxs]

/-- As many turns as there are targets end the meeting, and all common targets have been found. -/
theorem Stands.iterate_turn (h : m.Stands xs ys) {steps : Nat} (hsteps : xs.length + ys.length ≤ steps) :
    (Meeting.turn^[steps] m).ended = true ∧
      (Meeting.turn^[steps] m).found.toList = m.found.toList ++ xs.bagInter ys ∧
      (Meeting.turn^[steps] m).left.sources = m.left.sources ∧
      (Meeting.turn^[steps] m).right.sources = m.right.sources := by
  induction steps generalizing m xs ys with
  | zero =>
    obtain rfl : xs = [] := List.length_eq_zero_iff.mp (by omega)
    refine ⟨?_, by simp, rfl, rfl⟩
    simp [ended, h.a_eq]
  | succ steps ih =>
    cases hended : m.ended with
    | true =>
      rw [Function.iterate_fixed (turn_of_ended hended)]
      refine ⟨hended, ?_, rfl, rfl⟩
      rw [ended, h.a_eq, h.b_eq, Bool.or_eq_true] at hended
      rcases hended with hnone | hnone
      · obtain rfl : xs = [] := by simpa using hnone
        simp
      · obtain rfl : ys = [] := by simpa using hnone
        simp
    | false =>
      obtain ⟨xs', ys', hstands, hless, hfound, hleft, hright⟩ := h.turn hended
      obtain ⟨hend, hall, hfirst, hsecond⟩ := ih hstands (by omega)
      rw [Function.iterate_succ_apply]
      exact ⟨hend, hall.trans hfound, hfirst.trans hleft, hsecond.trans hright⟩

/-- What is left are the targets that the cursors show, and the two that have been yielded. -/
theorem Stands.length_le (h : m.Stands xs ys) : xs.length + ys.length ≤ m.left.remaining + m.right.remaining + 2 := by
  rw [Cursor.remaining_of_shows h.left, Cursor.remaining_of_shows h.right, List.length_tail, List.length_tail]
  omega

/-- Cursors that have each yielded their first targets. -/
theorem stands_start {left right : Cursor} (hleft : left.Shows xs) (hright : right.Shows ys) :
    (start left right).Stands xs ys :=
  ⟨(Cursor.next_of_shows hleft).1, (Cursor.next_of_shows hright).1, (Cursor.next_of_shows hleft).2,
    (Cursor.next_of_shows hright).2, Cursor.pairwise_of_shows hleft, Cursor.pairwise_of_shows hright⟩

end Meeting

namespace Cursor

/-- Two cursors that have each yielded the first of what is left meet at all common targets. -/
theorem meet_of_shows (steps : Nat) {xs ys : List Nat} {left right : Cursor} (found : Array Nat)
    (hxs : xs.Pairwise (· ≤ ·)) (hys : ys.Pairwise (· ≤ ·)) (hleft : left.Shows xs.tail)
    (hright : right.Shows ys.tail) (hsteps : xs.length + ys.length ≤ steps) :
    (meet steps xs.head? ys.head? left right found).1 = found ++ (xs.bagInter ys).toArray ∧
      (meet steps xs.head? ys.head? left right found).2.1.sources = left.sources ∧
      (meet steps xs.head? ys.head? left right found).2.2.sources = right.sources := by
  have hstands : Meeting.Stands ⟨xs.head?, ys.head?, left, right, found⟩ xs ys :=
    ⟨rfl, rfl, hleft, hright, hxs, hys⟩
  obtain ⟨-, hfound, hfirst, hsecond⟩ := hstands.iterate_turn hsteps
  have hmeet := Meeting.meet_eq_iterate steps ⟨xs.head?, ys.head?, left, right, found⟩
  simp only at hmeet hfound
  rw [hmeet]
  exact ⟨Array.ext' (by simpa using hfound), hfirst, hsecond⟩

/-- Two cursors share the intersection of what they show. -/
theorem sharedCount_of_shows {left right : Cursor} {xs ys : List Nat} (hleft : left.Shows xs)
    (hright : right.Shows ys) : left.sharedCount right = (xs.bagInter ys).length := by
  obtain ⟨hnextA, hshowsA⟩ := next_of_shows hleft
  obtain ⟨hnextB, hshowsB⟩ := next_of_shows hright
  have hmet := (meet_of_shows (left.remaining + right.remaining) #[] (pairwise_of_shows hleft)
    (pairwise_of_shows hright) hshowsA hshowsB
    (by rw [remaining_of_shows hleft, remaining_of_shows hright])).1
  simp only [sharedCount, hnextA, hnextB]
  rw [hmet]
  simp

end Cursor

end PackedGraph
