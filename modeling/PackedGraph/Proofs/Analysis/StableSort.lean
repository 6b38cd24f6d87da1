import Mathlib.Data.List.Sort
import Mathlib.Order.Defs.LinearOrder

/-!
# Stable sorting, one more at the end

To sort one more element stably is to insert it behind all that are no worse.  The front of a stable sort is
the same when a part at the end has been sorted and cut off before, as long as the cut leaves enough of it.

Main statements: `mergeSort_concat`, `take_mergeSort_append` and `pairwise_insertBehind`.
-/

namespace PackedGraph

variable {α β : Type} {le : α → α → Bool}

/-- Put an element behind all that come first and are no worse. -/
def insertBehind (le : α → α → Bool) (x : α) : List α → List α
  | [] => [x]
  | y :: ys => if le y x then y :: insertBehind le x ys else x :: y :: ys

theorem insertBehind_eq (le : α → α → Bool) (x : α) (xs : List α) :
    insertBehind le x xs = xs.takeWhile (le · x) ++ x :: xs.dropWhile (le · x) := by
  induction xs with
  | nil => rfl
  | cons y ys ih => cases h : le y x <;> simp [insertBehind, h, ih]

theorem mem_insertBehind {x z : α} {xs : List α} : z ∈ insertBehind le x xs ↔ z = x ∨ z ∈ xs := by
  conv_rhs => rw [← List.takeWhile_append_dropWhile (p := (le · x)) (l := xs)]
  rw [insertBehind_eq, List.mem_append, List.mem_cons, List.mem_append]
  exact or_left_comm

/-- Where an element comes to stand is told by comparing with it alone. -/
theorem map_insertBehind {f : α → β} {le' : β → β → Bool} {x : α} {xs : List α}
    (h : ∀ y ∈ xs, le y x = le' (f y) (f x)) :
    (insertBehind le x xs).map f = insertBehind le' (f x) (xs.map f) := by
  induction xs with
  | nil => rfl
  | cons y ys ih =>
    rw [List.forall_mem_cons] at h
    rw [insertBehind, List.map_cons, insertBehind, ← h.1, ← ih h.2]
    cases le y x <;> rfl

theorem insertBehind_congr {le' : α → α → Bool} {x : α} {xs : List α} (h : ∀ y ∈ xs, le y x = le' y x) :
    insertBehind le x xs = insertBehind le' x xs := by
  have hmap := map_insertBehind (f := id) h
  rwa [List.map_id, List.map_id] at hmap

/-- A sort of the whole list puts the first element in front of all that are no better. -/
theorem mergeSort_cons_eq (htrans : ∀ a b c, le a b → le b c → le a c) (htotal : ∀ a b, le a b || le b a)
    (x : α) (xs : List α) :
    (x :: xs).mergeSort le = (xs.mergeSort le).orderedInsert (fun a b => le a b = true) x := by
  obtain ⟨front, back, hsorted, hrest, hfront⟩ := List.mergeSort_cons htrans htotal x xs
  have hpairwise := List.pairwise_mergeSort htrans htotal (x :: xs)
  rw [hsorted] at hpairwise ⊢
  rw [hrest]
  clear hsorted hrest
  induction front with
  | nil =>
    cases back with
    | nil => rfl
    | cons y back =>
      have hle : le x y = true := (List.pairwise_cons.mp hpairwise).1 y List.mem_cons_self
      exact (List.orderedInsert_cons_of_le _ back hle).symm
  | cons y front ih =>
    rw [List.forall_mem_cons] at hfront
    rw [List.cons_append, List.cons_append, List.orderedInsert_of_not_le _ _ (by simpa using hfront.1),
      ← ih hfront.2 (List.pairwise_cons.mp hpairwise).2]

/-- Whether one element is put in from the front or another from behind first does not matter. -/
theorem insertBehind_orderedInsert (htrans : ∀ a b c, le a b → le b c → le a c)
    (htotal : ∀ a b, le a b || le b a) (x a : α) (xs : List α) :
    insertBehind le x (xs.orderedInsert (fun a b => le a b = true) a) =
      (insertBehind le x xs).orderedInsert (fun a b => le a b = true) a := by
  induction xs with
  | nil => cases h : le a x <;> simp [insertBehind, h]
  | cons y ys ih =>
    by_cases hay : le a y = true
    · by_cases hyx : le y x = true
      · simp [insertBehind, hay, hyx, htrans a y x hay hyx]
      · cases hax : le a x <;> simp [insertBehind, hay, hyx, hax]
    · by_cases hyx : le y x = true
      · simp [insertBehind, hay, hyx, ih]
      · -- what is better than the last is not better than the middle
        have hax : ¬ le a x = true := by
          intro hax
          have hya : le y a = true := by simpa [hay] using htotal y a
          exact hyx (htrans y a x hya hax)
        simp [insertBehind, hay, hyx, hax]

/-- Sorting stably one more element is inserting it behind all that are no worse. -/
theorem mergeSort_concat (htrans : ∀ a b c, le a b → le b c → le a c) (htotal : ∀ a b, le a b || le b a)
    (xs : List α) (x : α) : (xs ++ [x]).mergeSort le = insertBehind le x (xs.mergeSort le) := by
  induction xs with
  | nil => simp [insertBehind]
  | cons y ys ih =>
    rw [List.cons_append, mergeSort_cons_eq htrans htotal, ih, mergeSort_cons_eq htrans htotal,
      insertBehind_orderedInsert htrans htotal]

/-- Sorts by orders that agree on the elements are the same. -/
theorem mergeSort_congr {le' : α → α → Bool} {xs : List α} (h : ∀ a ∈ xs, ∀ b ∈ xs, le a b = le' a b) :
    xs.mergeSort le = xs.mergeSort le' := by
  have hmap := List.map_mergeSort (f := id) h
  rwa [List.map_id, List.map_id] at hmap

/-! ## In two parts -/

section Parts

variable (htrans : ∀ a b c, le a b → le b c → le a c) (htotal : ∀ a b, le a b || le b a)

include htrans htotal

/-- The elements of the first part are put one by one into the second part once that is sorted. -/
theorem mergeSort_append_eq_foldr (xs ys : List α) :
    (xs ++ ys).mergeSort le =
      xs.foldr (fun x sorted => sorted.orderedInsert (fun a b => le a b = true) x) (ys.mergeSort le) := by
  induction xs with
  | nil => rfl
  | cons x xs ih => rw [List.cons_append, mergeSort_cons_eq htrans htotal, ih, List.foldr_cons]

/-- The front of a sort is sorted already. -/
theorem mergeSort_take_mergeSort (ys : List α) (count : Nat) :
    ((ys.mergeSort le).take count).mergeSort le = (ys.mergeSort le).take count :=
  List.mergeSort_of_pairwise ((List.pairwise_mergeSort htrans htotal ys).sublist (List.take_sublist _ _))

omit htrans htotal in
/-- What is in front after an insertion was in front before. -/
theorem take_orderedInsert (x : α) (sorted : List α) (count : Nat) :
    (sorted.orderedInsert (fun a b => le a b = true) x).take count =
      ((sorted.take count).orderedInsert (fun a b => le a b = true) x).take count := by
  induction sorted generalizing count with
  | nil => rw [List.take_nil]
  | cons y ys ih =>
    cases count with
    | zero => rfl
    | succ count =>
      rw [List.take_succ_cons, List.orderedInsert_cons, List.orderedInsert_cons]
      by_cases hle : le x y = true
      · have hfront : (y :: ys).take count = (y :: ys.take count).take count := by
          rw [← List.take_succ_cons, List.take_take, Nat.min_eq_left (Nat.le_succ count)]
        rw [if_pos hle, if_pos hle, List.take_succ_cons, List.take_succ_cons, hfront]
      · rw [if_neg hle, if_neg hle, List.take_succ_cons, List.take_succ_cons, ih]

omit htrans htotal in
theorem take_foldr_orderedInsert (xs sorted : List α) {count kept : Nat} (h : count ≤ kept) :
    (xs.foldr (fun x sorted => sorted.orderedInsert (fun a b => le a b = true) x) (sorted.take kept)).take count =
      (xs.foldr (fun x sorted => sorted.orderedInsert (fun a b => le a b = true) x) sorted).take count := by
  induction xs with
  | nil => rw [List.foldr_nil, List.foldr_nil, List.take_take, Nat.min_eq_left h]
  | cons x xs ih => rw [List.foldr_cons, List.foldr_cons, take_orderedInsert, ih, ← take_orderedInsert]

/-- The front of a sort does not miss what a front at least as long of its second part has dropped. -/
theorem take_mergeSort_append (xs ys : List α) {count kept : Nat} (h : count ≤ kept) :
    ((xs ++ (ys.mergeSort le).take kept).mergeSort le).take count = ((xs ++ ys).mergeSort le).take count := by
  rw [mergeSort_append_eq_foldr htrans htotal, mergeSort_append_eq_foldr htrans htotal,
    mergeSort_take_mergeSort htrans htotal, take_foldr_orderedInsert _ _ h]

end Parts

/-! ## By ranks -/

section Ranks

variable {R : Type} [LinearOrder R] {rank : α → R} {earlier : α → α → Prop}

/-- What comes in last keeps behind whatever has its rank. -/
theorem pairwise_insertBehind {x : α} {xs : List α} (hearlier : ∀ y ∈ xs, earlier y x)
    (h : xs.Pairwise fun a b => rank a < rank b ∨ rank a = rank b ∧ earlier a b) :
    (insertBehind (fun a b => decide (rank a ≤ rank b)) x xs).Pairwise fun a b =>
      rank a < rank b ∨ rank a = rank b ∧ earlier a b := by
  induction xs with
  | nil => simp [insertBehind]
  | cons y ys ih =>
    rw [List.forall_mem_cons] at hearlier
    obtain ⟨hhead, hrest⟩ := List.pairwise_cons.mp h
    by_cases hle : rank y ≤ rank x
    · rw [insertBehind, if_pos (decide_eq_true hle), List.pairwise_cons]
      refine ⟨fun z hz => ?_, ih hearlier.2 hrest⟩
      rcases mem_insertBehind.mp hz with rfl | hz
      · exact hle.lt_or_eq.imp id fun heq => ⟨heq, hearlier.1⟩
      · exact hhead z hz
    · have hlt := not_le.mp hle
      rw [insertBehind, if_neg (by simpa using hlt), List.pairwise_cons]
      refine ⟨fun z hz => .inl ?_, h⟩
      rcases List.mem_cons.mp hz with rfl | hz
      · exact hlt
      · rcases hhead z hz with hnext | ⟨hnext, -⟩
        · exact hlt.trans hnext
        · exact hnext ▸ hlt

end Ranks

end PackedGraph
