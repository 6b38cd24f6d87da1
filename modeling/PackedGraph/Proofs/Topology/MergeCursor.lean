import Mathlib.Algebra.GroupWithZero.Nat
import Mathlib.Data.List.Permutation
import PackedGraph.Proofs.Topology.RunCursor

/-!
# A merging cursor shows the merged list

The heads of a merging cursor are the heads of what its cursors show, in order.  So the first of them is
the smallest target that is left anywhere, and the list that the merging cursor shows is the sorted
multiset union of the lists of its cursors.

Main statements: `MergeCursor.next_of_shows` and `MergeCursor.peek_of_shows`,
`MergeCursor.remaining_of_shows`, `MergeCursor.shows_rebind`, and `MergeCursor.disorder_of_shows`: no
cursor is ever found out of order.
-/

namespace PackedGraph

/-! ## Ordered heads -/

namespace Head

theorem before_iff (a b : Head) : before a b = true ↔ a.1 < b.1 ∨ a.1 = b.1 ∧ a.2 ≤ b.2 := by
  simp [before]

theorem before_total {a b : Head} (h : before a b = false) : before b a = true := by
  rw [← Bool.not_eq_true, before_iff] at h
  rw [before_iff]
  omega

theorem before_trans {a b c : Head} (hab : before a b = true) (hbc : before b c = true) :
    before a c = true := by
  rw [before_iff] at *
  omega

/-- Inserting a head adds it and nothing else. -/
theorem insert_perm (head : Head) (heads : List Head) :
    (insert head heads).Perm (head :: heads) := by
  induction heads with
  | nil => exact List.Perm.refl _
  | cons other rest ih =>
    rw [insert]
    split
    · exact List.Perm.refl _
    · exact (ih.cons other).trans (List.Perm.swap head other rest)

/-- Inserting a head keeps the order. -/
theorem pairwise_insert (head : Head) {heads : List Head}
    (h : heads.Pairwise fun a b => before a b = true) :
    (insert head heads).Pairwise fun a b => before a b = true := by
  induction heads with
  | nil => exact List.pairwise_singleton _ _
  | cons other rest ih =>
    obtain ⟨hother, hrest⟩ := List.pairwise_cons.mp h
    rw [insert]
    split
    case isTrue hbefore =>
      refine List.pairwise_cons.mpr ⟨fun x hx => ?_, h⟩
      rcases List.mem_cons.mp hx with rfl | hx
      · exact hbefore
      · exact before_trans hbefore (hother x hx)
    case isFalse hbefore =>
      refine List.pairwise_cons.mpr ⟨fun x hx => ?_, ih hrest⟩
      rcases List.mem_cons.mp ((insert_perm head rest).mem_iff.mp hx) with rfl | hx
      · exact before_total (Bool.not_eq_true _ ▸ hbefore)
      · exact hother x hx

end Head

/-- The heads of some lists, each with the number of its list, counted from `first`. -/
def headsFrom (first : Nat) (rests : List (List Nat)) : List Head :=
  (rests.zipIdx first).filterMap fun (rest, number) => rest.head?.map (·, number)

@[simp] theorem headsFrom_nil (first : Nat) : headsFrom first [] = [] := rfl

theorem headsFrom_cons (first : Nat) (rest : List Nat) (rests : List (List Nat)) :
    headsFrom first (rest :: rests) =
      (rest.head?.map (·, first)).toList ++ headsFrom (first + 1) rests := by
  rw [headsFrom, List.zipIdx_cons, List.filterMap_cons]
  cases rest <;> rfl

theorem headsFrom_append (first : Nat) (front back : List (List Nat)) :
    headsFrom first (front ++ back) = headsFrom first front ++ headsFrom (first + front.length) back := by
  simp [headsFrom, List.zipIdx_append, List.filterMap_append]

/-- A head names a list and is its first entry. -/
theorem mem_headsFrom {rests : List (List Nat)} {target number : Nat} :
    (target, number) ∈ headsFrom 0 rests ↔ ∃ tail, rests[number]? = some (target :: tail) := by
  rw [headsFrom, List.mem_filterMap]
  constructor
  · rintro ⟨⟨rest, index⟩, hmem, heq⟩
    rw [Option.map_eq_some_iff] at heq
    obtain ⟨head, hhead, heq⟩ := heq
    obtain ⟨rfl, rfl⟩ := Prod.mk.inj heq
    obtain ⟨tail, rfl⟩ := List.head?_eq_some_iff.mp hhead
    exact ⟨tail, List.mem_zipIdx_iff_getElem?.mp hmem⟩
  · rintro ⟨tail, hrest⟩
    exact ⟨(target :: tail, number), List.mem_zipIdx_iff_getElem?.mpr hrest, rfl⟩

namespace MergeCursor

/-! ## What is merged -/

/-- The cursors show the given lists, and the heads are theirs, in order. -/
structure Merges (c : MergeCursor) (rests : List (List Nat)) : Prop where
  /-- There is one cursor for each list. -/
  size_eq : c.cursors.toList.length = rests.length
  /-- Every cursor shows its list. -/
  shows : ∀ (number : Nat) (cursor : RunCursor) (rest : List Nat),
    c.cursors.toList[number]? = some cursor → rests[number]? = some rest → cursor.Shows rest
  /-- The heads are in order. -/
  sorted : c.heads.Pairwise fun a b => Head.before a b = true
  /-- They are the heads of the lists. -/
  heads_perm : c.heads.Perm (headsFrom 0 rests)

/-- The sorted list of the targets that are not taken. -/
def Shows (c : MergeCursor) (rest : List Nat) : Prop :=
  ∃ rests, c.Merges rests ∧ rest.Perm rests.flatten ∧ rest.Pairwise (· ≤ ·)

/-- The adjacencies that are merged. -/
def sources (c : MergeCursor) : List Adjacency := c.cursors.toList.map RunCursor.source

/-- The degrees of the node in all of them. -/
def degrees (c : MergeCursor) : List Nat := c.cursors.toList.map RunCursor.degree

theorem degree_eq (c : MergeCursor) : c.degree = c.degrees.sum := by
  rw [degree, degrees, ← Array.foldl_toList, List.sum_eq_foldl, List.foldl_map]

theorem Merges.cursor {c : MergeCursor} {rests : List (List Nat)} (h : c.Merges rests)
    {number : Nat} {rest : List Nat} (hrest : rests[number]? = some rest) :
    ∃ cursor, c.cursors.toList[number]? = some cursor ∧ cursor.Shows rest := by
  have hlt : number < c.cursors.toList.length := by
    rw [h.size_eq]
    exact (List.getElem?_eq_some_iff.mp hrest).1
  exact ⟨c.cursors.toList[number], List.getElem?_eq_getElem hlt,
    h.shows number _ rest (List.getElem?_eq_getElem hlt) hrest⟩

theorem Merges.cursor_behind {c : MergeCursor} {front back : List (List Nat)} {rest : List Nat}
    (h : c.Merges (front ++ rest :: back)) :
    ∃ cursor, c.cursors.toList[front.length]? = some cursor ∧ cursor.Shows rest :=
  h.cursor (by rw [List.getElem?_append_right le_rfl, Nat.sub_self]; rfl)

theorem remaining_of_shows {c : MergeCursor} {rest : List Nat} (h : c.Shows rest) :
    c.remaining = rest.length := by
  obtain ⟨rests, hmerges, hperm, -⟩ := h
  have hremaining : c.cursors.toList.map RunCursor.remaining = rests.map List.length := by
    refine List.ext_getElem? fun number => ?_
    rw [List.getElem?_map, List.getElem?_map]
    cases hrest : rests[number]? with
    | none =>
      have hnone : c.cursors.toList[number]? = none := by
        rw [List.getElem?_eq_none_iff, hmerges.size_eq]
        exact List.getElem?_eq_none_iff.mp hrest
      rw [hnone]
      rfl
    | some list =>
      obtain ⟨cursor, hcursor, hshows⟩ := hmerges.cursor hrest
      rw [hcursor, Option.map_some, Option.map_some, RunCursor.remaining_of_shows hshows]
  rw [hperm.length_eq, List.length_flatten, ← hremaining, remaining, ← Array.foldl_toList,
    List.sum_eq_foldl, List.foldl_map]

/-! ## The smallest target -/

/-- The first head is the smallest of all targets. -/
theorem Merges.head_le {c : MergeCursor} {rests : List (List Nat)} (h : c.Merges rests)
    {target number : Nat} {heads : List Head} (hheads : c.heads = (target, number) :: heads) :
    ∀ other ∈ rests.flatten, target ≤ other := by
  intro other hmem
  obtain ⟨rest, hrest, hother⟩ := List.mem_flatten.mp hmem
  obtain ⟨index, hindex⟩ := List.getElem?_of_mem hrest
  obtain ⟨cursor, -, hshows⟩ := h.cursor hindex
  cases rest with
  | nil => exact absurd hother List.not_mem_nil
  | cons first tail =>
    have hfirst : first ≤ other := by
      rcases List.mem_cons.mp hother with rfl | hother
      · exact le_rfl
      · exact (List.pairwise_cons.mp (RunCursor.pairwise_of_shows hshows)).1 other hother
    have hin : (first, index) ∈ c.heads := h.heads_perm.mem_iff.mpr (mem_headsFrom.mpr ⟨tail, hindex⟩)
    have hsorted := h.sorted
    rw [hheads] at hin hsorted
    rcases List.mem_cons.mp hin with heq | hin
    · rw [← (Prod.mk.inj heq).1]
      exact hfirst
    · have hbefore := (Head.before_iff _ _).mp ((List.pairwise_cons.mp hsorted).1 _ hin)
      simp only at hbefore
      omega

/-- Without heads nothing is left. -/
theorem Merges.flatten_eq_nil {c : MergeCursor} {rests : List (List Nat)} (h : c.Merges rests)
    (hheads : c.heads = []) : rests.flatten = [] := by
  rw [List.flatten_eq_nil_iff]
  intro rest hmem
  obtain ⟨number, hnumber⟩ := List.getElem?_of_mem hmem
  cases rest with
  | nil => rfl
  | cons target tail =>
    have hin := h.heads_perm.mem_iff.mpr (mem_headsFrom.mpr ⟨tail, hnumber⟩)
    rw [hheads] at hin
    exact absurd hin List.not_mem_nil

/-- The first head is the head of the merged list. -/
theorem peek_of_shows {c : MergeCursor} {rest : List Nat} (h : c.Shows rest) :
    c.peek = rest.head? := by
  obtain ⟨rests, hmerges, hperm, hsorted⟩ := h
  rw [peek]
  cases hheads : c.heads with
  | nil =>
    rw [hmerges.flatten_eq_nil hheads] at hperm
    rw [hperm.eq_nil]
    rfl
  | cons head heads =>
    obtain ⟨target, number⟩ := head
    have hin : (target, number) ∈ c.heads := by
      rw [hheads]
      exact List.mem_cons_self
    obtain ⟨tail, htail⟩ := mem_headsFrom.mp (hmerges.heads_perm.mem_iff.mp hin)
    have hmem : target ∈ rest := hperm.mem_iff.mpr
      (List.mem_flatten.mpr ⟨_, List.mem_of_getElem? htail, List.mem_cons_self⟩)
    cases rest with
    | nil => exact absurd hmem List.not_mem_nil
    | cons least others =>
      have hle : target ≤ least := hmerges.head_le hheads least (hperm.mem_iff.mp List.mem_cons_self)
      have hge : least ≤ target := by
        rcases List.mem_cons.mp hmem with rfl | hmem
        · exact le_rfl
        · exact (List.pairwise_cons.mp hsorted).1 target hmem
      rw [List.head?_cons, List.head?_cons, Option.map_some, le_antisymm hle hge]

/-! ## Taking a target -/

/-- What a cursor offers becomes a head, and the cursor takes its place. -/
theorem merges_offer {c : MergeCursor} {cursor : RunCursor} {front back : List (List Nat)}
    {rest : List Nat} (hcursor : cursor.Shows rest)
    (hsize : c.cursors.toList.length = (front ++ rest :: back).length)
    (hshows : ∀ (number : Nat) (other : RunCursor) (list : List Nat), number ≠ front.length →
      c.cursors.toList[number]? = some other → (front ++ rest :: back)[number]? = some list →
      other.Shows list)
    (hsorted : c.heads.Pairwise fun a b => Head.before a b = true)
    (hheads : c.heads.Perm (headsFrom 0 front ++ headsFrom (front.length + 1) back)) :
    (c.offer front.length cursor).Merges (front ++ rest :: back) := by
  obtain ⟨hhead, hpeeked⟩ := RunCursor.peek_of_shows hcursor
  have hlist : headsFrom 0 (front ++ rest :: back) =
      headsFrom 0 front ++ ((rest.head?.map (·, front.length)).toList ++
        headsFrom (front.length + 1) back) := by
    rw [headsFrom_append, headsFrom_cons, Nat.zero_add]
  simp only [offer, hhead]
  refine ⟨?_, ?_, ?_, ?_⟩
  · simpa using hsize
  · intro number other list hother hrest
    simp only [Array.toList_setIfInBounds] at hother
    by_cases hnumber : number = front.length
    · subst hnumber
      rw [List.getElem?_set_self (by rw [hsize]; simp), Option.some.injEq] at hother
      rw [List.getElem?_append_right le_rfl, Nat.sub_self, List.getElem?_cons_zero,
        Option.some.injEq]
        at hrest
      rw [← hother, ← hrest]
      exact hpeeked
    · rw [List.getElem?_set_ne (Ne.symm hnumber)] at hother
      exact hshows number other list hnumber hother hrest
  · cases rest with
    | nil => exact hsorted
    | cons target tail => exact Head.pairwise_insert _ hsorted
  · rw [hlist]
    cases rest with
    | nil => exact hheads
    | cons target tail =>
      exact (Head.insert_perm _ _).trans ((hheads.cons _).trans List.perm_middle.symm)

/-- A list around one of its places. -/
theorem exists_split {rests : List (List Nat)} {number : Nat} {rest : List Nat}
    (h : rests[number]? = some rest) :
    ∃ front back, rests = front ++ rest :: back ∧ front.length = number := by
  obtain ⟨hlt, rfl⟩ := List.getElem?_eq_some_iff.mp h
  refine ⟨rests.take number, rests.drop (number + 1), ?_, ?_⟩
  · rw [← List.drop_eq_getElem_cons hlt, List.take_append_drop]
  · rw [List.length_take]
    omega

/-- Taking the first head takes the first target of its list. -/
theorem merges_next {c : MergeCursor} {front back : List (List Nat)} {target : Nat}
    {tail : List Nat} {heads : List Head} (h : c.Merges (front ++ (target :: tail) :: back))
    (hheads : c.heads = (target, front.length) :: heads) :
    c.next.1 = some target ∧ c.next.2.Merges (front ++ tail :: back) := by
  obtain ⟨cursor, hcursor, hshows⟩ := h.cursor_behind
  rw [Array.getElem?_toList] at hcursor
  simp only [next, hheads, hcursor]
  have hperm := h.heads_perm
  have hsorted := h.sorted
  rw [hheads] at hperm hsorted
  rw [headsFrom_append, headsFrom_cons, Nat.zero_add] at hperm
  refine ⟨trivial, merges_offer (RunCursor.next_of_shows hshows).2 ?_ ?_ ?_ ?_⟩
  · simpa using h.size_eq
  · intro number other list hnumber hother hrest
    refine h.shows number other list hother ?_
    rw [List.getElem?_append] at hrest ⊢
    split at hrest
    case isTrue hlt => rwa [if_pos hlt]
    case isFalse hge =>
      rw [if_neg hge]
      obtain ⟨k, hk⟩ : ∃ k, number - front.length = k + 1 := ⟨number - front.length - 1, by omega⟩
      rw [hk] at hrest ⊢
      exact hrest
  · exact (List.pairwise_cons.mp hsorted).2
  · exact (List.perm_cons (target, front.length)).mp (hperm.trans List.perm_middle)

/-- Without heads there is nothing to take. -/
theorem next_of_heads_nil {c : MergeCursor} (hheads : c.heads = []) : c.next = (none, c) := by
  simp only [next, hheads]

/-- The list of a head, with the lists around it. -/
theorem Merges.split {c : MergeCursor} {rests : List (List Nat)} (h : c.Merges rests)
    {target number : Nat} {heads : List Head} (hheads : c.heads = (target, number) :: heads) :
    ∃ front tail back, rests = front ++ (target :: tail) :: back ∧ front.length = number := by
  have hin : (target, number) ∈ c.heads := by
    rw [hheads]
    exact List.mem_cons_self
  obtain ⟨tail, htail⟩ := mem_headsFrom.mp (h.heads_perm.mem_iff.mp hin)
  obtain ⟨front, back, hsplit, hlength⟩ := exists_split htail
  exact ⟨front, tail, back, hsplit, hlength⟩

/-- `next` yields the head of the merged list and leaves the tail. -/
theorem next_of_shows {c : MergeCursor} {rest : List Nat} (h : c.Shows rest) :
    c.next.1 = rest.head? ∧ c.next.2.Shows rest.tail := by
  have hpeek := peek_of_shows h
  obtain ⟨rests, hmerges, hperm, hsorted⟩ := h
  rw [peek] at hpeek
  cases hheads : c.heads with
  | nil =>
    rw [hmerges.flatten_eq_nil hheads] at hperm
    rw [next_of_heads_nil hheads, hperm.eq_nil]
    exact ⟨rfl, rests, hmerges, by rw [hmerges.flatten_eq_nil hheads]; exact List.Perm.refl _,
      List.Pairwise.nil⟩
  | cons head heads =>
    obtain ⟨target, number⟩ := head
    obtain ⟨front, tail, back, rfl, rfl⟩ := hmerges.split hheads
    obtain ⟨hnext, hmerges'⟩ := merges_next hmerges hheads
    rw [hheads] at hpeek
    obtain ⟨others, rfl⟩ := List.head?_eq_some_iff.mp hpeek.symm
    refine ⟨hnext, _, hmerges', ?_, (List.pairwise_cons.mp hsorted).2⟩
    refine (List.perm_cons target).mp (hperm.trans ?_)
    rw [List.flatten_append, List.flatten_append, List.flatten_cons, List.flatten_cons]
    exact List.perm_middle

/-- Ascending cursors are never found out of order. -/
theorem disorder_of_shows {c : MergeCursor} {rest : List Nat} (h : c.Shows rest) :
    c.disorder? = none := by
  obtain ⟨rests, hmerges, -, -⟩ := h
  rw [disorder?]
  cases hheads : c.heads with
  | nil => rfl
  | cons head heads =>
    obtain ⟨target, number⟩ := head
    obtain ⟨front, tail, back, rfl, rfl⟩ := hmerges.split hheads
    obtain ⟨cursor, hcursor, hshows⟩ := hmerges.cursor_behind
    rw [Array.getElem?_toList] at hcursor
    have hfollowing := (RunCursor.peek_of_shows (RunCursor.next_of_shows hshows).2).1
    simp only [hcursor, Option.bind_some, hfollowing, List.tail_cons]
    cases tail with
    | nil => rfl
    | cons following others =>
      have hle := (List.pairwise_cons.mp (RunCursor.pairwise_of_shows hshows)).1 following
        List.mem_cons_self
      rw [List.head?_cons, Option.bind_some, if_neg (by omega)]

/-! ## Sources and degrees -/

/-- What peeking leaves alone in every cursor, offering a cursor again leaves alone in all of them. -/
theorem map_offer {β : Type} (f : RunCursor → β) (hpeek : ∀ cursor, f cursor.peek.2 = f cursor)
    {c : MergeCursor} {number : Nat} {cursor old : RunCursor} (hold : c.cursors.toList[number]? = some old)
    (hsame : f cursor = f old) :
    (c.offer number cursor).cursors.toList.map f = c.cursors.toList.map f := by
  rw [show (c.offer number cursor).cursors = c.cursors.setIfInBounds number cursor.peek.2 from rfl,
    Array.toList_setIfInBounds, List.map_set, hpeek, hsame]
  refine List.ext_getElem? fun index => ?_
  rw [List.getElem?_set]
  split
  case isTrue heq =>
    subst heq
    have hlt := (List.getElem?_eq_some_iff.mp hold).1
    rw [if_pos (by rwa [List.length_map]), List.getElem?_map, hold, Option.map_some]
  case isFalse => rfl

theorem map_next {β : Type} (f : RunCursor → β) (hpeek : ∀ cursor, f cursor.peek.2 = f cursor)
    (hnext : ∀ cursor, f cursor.next.2 = f cursor) (c : MergeCursor) :
    c.next.2.cursors.toList.map f = c.cursors.toList.map f := by
  cases hheads : c.heads with
  | nil => rw [next_of_heads_nil hheads]
  | cons head heads =>
    obtain ⟨target, number⟩ := head
    cases hold : c.cursors[number]? with
    | none => simp only [next, hheads, hold]
    | some old =>
      simp only [next, hheads, hold]
      rw [← Array.getElem?_toList] at hold
      exact map_offer f hpeek (c := { c with heads := heads }) hold (hnext old)

@[simp] theorem sources_next (c : MergeCursor) : c.next.2.sources = c.sources :=
  map_next _ RunCursor.source_peek RunCursor.source_next c

@[simp] theorem degrees_next (c : MergeCursor) : c.next.2.degrees = c.degrees :=
  map_next _ RunCursor.degree_peek RunCursor.degree_next c

/-! ## Binding -/

/-- Offer cursors one after the other, numbered from `first` on. -/
def offerAll (first : Nat) (cursors : List RunCursor) (c : MergeCursor) : MergeCursor :=
  (cursors.zipIdx first).foldl (fun c (cursor, number) => c.offer number cursor) c

theorem offerAll_cons (first : Nat) (cursor : RunCursor) (cursors : List RunCursor)
    (c : MergeCursor) :
    offerAll first (cursor :: cursors) c = offerAll (first + 1) cursors (c.offer first cursor) := rfl

/-- Every place gets the cursor that is offered for it. -/
theorem cursors_offerAll (cursors : List RunCursor) :
    ∀ (front : List RunCursor) (c : MergeCursor),
      c.cursors.toList.length = front.length + cursors.length →
      c.cursors.toList.take front.length = front →
      (offerAll front.length cursors c).cursors.toList = front ++ cursors.map (·.peek.2) := by
  induction cursors with
  | nil =>
    intro front c hlength htake
    rw [List.length_nil, Nat.add_zero] at hlength
    rw [← hlength, List.take_length] at htake
    simp [offerAll, htake]
  | cons cursor cursors ih =>
    intro front c hlength htake
    have hcursors : (c.offer front.length cursor).cursors.toList =
        c.cursors.toList.set front.length cursor.peek.2 := Array.toList_setIfInBounds ..
    rw [List.length_cons] at hlength
    have hlt : front.length < c.cursors.toList.length := by omega
    have hstep := ih (front ++ [cursor.peek.2]) (c.offer front.length cursor)
      (by rw [hcursors, List.length_set, List.length_append, List.length_singleton]; omega)
      (by rw [hcursors, List.length_append, List.length_singleton, List.take_succ_eq_append_getElem
            (by rwa [List.length_set]), List.take_set_of_le le_rfl, htake, List.getElem_set_self])
    rw [List.length_append, List.length_singleton] at hstep
    rw [offerAll_cons, hstep, List.append_assoc]
    rfl

/-- The heads of the lists are added, in order. -/
theorem heads_offerAll {cursors : List RunCursor} {rests : List (List Nat)}
    (h : List.Forall₂ RunCursor.Shows cursors rests) :
    ∀ (first : Nat) (c : MergeCursor), (c.heads.Pairwise fun a b => Head.before a b = true) →
      ((offerAll first cursors c).heads.Pairwise fun a b => Head.before a b = true) ∧
        (offerAll first cursors c).heads.Perm (c.heads ++ headsFrom first rests) := by
  induction h with
  | nil => exact fun first c hsorted => ⟨hsorted, by simp [offerAll]⟩
  | @cons cursor rest cursors rests hshows _ ih =>
    intro first c hsorted
    have hhead := (RunCursor.peek_of_shows hshows).1
    rw [offerAll_cons, headsFrom_cons]
    cases rest with
    | nil =>
      have hheads : (c.offer first cursor).heads = c.heads := by
        simp only [offer, hhead, List.head?_nil]
      obtain ⟨hpairwise, hperm⟩ := ih (first + 1) (c.offer first cursor) (by rwa [hheads])
      rw [hheads] at hperm
      exact ⟨hpairwise, hperm⟩
    | cons target tail =>
      have hheads : (c.offer first cursor).heads = Head.insert (target, first) c.heads := by
        simp only [offer, hhead, List.head?_cons]
      obtain ⟨hpairwise, hperm⟩ := ih (first + 1) (c.offer first cursor)
        (by rw [hheads]; exact Head.pairwise_insert _ hsorted)
      rw [hheads] at hperm
      refine ⟨hpairwise, hperm.trans ?_⟩
      exact ((Head.insert_perm _ _).append_right _).trans List.perm_middle.symm

/-- Cursors that are all offered are merged. -/
theorem merges_offerAll {cursors : List RunCursor} {rests : List (List Nat)}
    (h : List.Forall₂ RunCursor.Shows cursors rests) {c : MergeCursor}
    (hsize : c.cursors.toList.length = cursors.length) (hheads : c.heads = []) :
    (offerAll 0 cursors c).Merges rests := by
  have hcursors := cursors_offerAll cursors [] c (by simpa using hsize) rfl
  rw [List.length_nil, List.nil_append] at hcursors
  obtain ⟨hsorted, hperm⟩ := heads_offerAll h 0 c (by rw [hheads]; exact List.Pairwise.nil)
  refine ⟨?_, ?_, hsorted, by rwa [hheads, List.nil_append] at hperm⟩
  · rw [hcursors, List.length_map, h.length_eq]
  · intro number cursor rest hcursor hrest
    rw [hcursors, List.getElem?_map, Option.map_eq_some_iff] at hcursor
    obtain ⟨offered, hoffered, rfl⟩ := hcursor
    obtain ⟨hlt, rfl⟩ := List.getElem?_eq_some_iff.mp hoffered
    obtain ⟨hlt', rfl⟩ := List.getElem?_eq_some_iff.mp hrest
    exact (RunCursor.peek_of_shows (h.get hlt hlt')).2

theorem ofCursors_eq (cursors : Array RunCursor) :
    ofCursors cursors = offerAll 0 cursors.toList ⟨cursors, []⟩ :=
  rfl

theorem rebindFrom_eq (node : Nat) (cursors : List RunCursor)
    (h : ∀ cursor ∈ cursors, cursor.rebind? node = some (cursor.rebind node)) :
    ∀ (first : Nat) (c : MergeCursor), rebindFrom node (cursors.zipIdx first) c =
      (offerAll first (cursors.map (·.rebind node)) c, true) := by
  induction cursors with
  | nil => exact fun _ _ => rfl
  | cons cursor cursors ih =>
    intro first c
    rw [List.zipIdx_cons, rebindFrom, h cursor List.mem_cons_self, List.map_cons, offerAll_cons]
    exact ih (fun other hother => h other (List.mem_cons_of_mem _ hother)) _ _

/-- The adjacencies hold the given rows, one list of rows for each of them. -/
def Reads (c : MergeCursor) (all : List (List (List UInt64))) : Prop :=
  List.Forall₂ Adjacency.Holds c.sources all

end MergeCursor

/-- The rows of a node in several adjacencies. -/
def rowsOf (all : List (List (List UInt64))) (node : Nat) : List (List Nat) :=
  all.map fun rows => rowOf rows node

/-- The rows of a node in several adjacencies, merged into one ascending row. -/
def mergedRow (all : List (List (List UInt64))) (node : Nat) : List Nat :=
  (rowsOf all node).flatten.mergeSort fun a b => decide (a ≤ b)

/-- One row alone is its merge. -/
theorem mergedRow_singleton {rows : List (List UInt64)}
    (h : ∀ row ∈ rows, Varint.AscendsFrom 0 row) :
    mergedRow [rows] = rowOf rows := by
  funext node
  have hsorted : (rowOf rows node).Pairwise (· ≤ ·) := by
    rw [rowOf]
    cases hrow : rows[node]? with
    | none => exact List.Pairwise.nil
    | some row =>
      have hsorted := RunCursor.pairwise_toNat (h row (List.mem_of_getElem? hrow))
      exact (List.pairwise_cons.mp hsorted).2
  rw [mergedRow, rowsOf, List.map_singleton, List.flatten_singleton]
  exact List.mergeSort_of_pairwise (hsorted.imp fun hle => by simpa using hle)

namespace MergeCursor

/-- Cursors that are bound to a node show its rows. -/
theorem forall₂_rebind {c : MergeCursor} {all : List (List (List UInt64))} (h : c.Reads all)
    (node : Nat) :
    List.Forall₂ RunCursor.Shows (c.cursors.toList.map (·.rebind node)) (rowsOf all node) := by
  rw [Reads, sources, List.forall₂_map_left_iff] at h
  rw [rowsOf, List.forall₂_map_left_iff, List.forall₂_map_right_iff]
  exact h.imp fun cursor rows hholds => RunCursor.shows_rebind hholds node

theorem Merges.shows_mergeSort {c : MergeCursor} {rests : List (List Nat)} (h : c.Merges rests) :
    c.Shows (rests.flatten.mergeSort fun a b => decide (a ≤ b)) := by
  refine ⟨rests, h, List.mergeSort_perm _ _, ?_⟩
  have hsorted : (rests.flatten.mergeSort fun a b => decide (a ≤ b)).Pairwise
      fun a b => decide (a ≤ b) :=
    List.pairwise_mergeSort (fun a b c hab hbc => by simp at *; omega)
      (fun a b => by simp; omega) rests.flatten
  exact hsorted.imp fun hle => by simpa using hle

/-- Binding to a node that all adjacencies have is not refused, and is the same as binding unchecked. -/
theorem rebindChecked_eq {c : MergeCursor} {node : Nat}
    (h : ∀ cursor ∈ c.cursors.toList, cursor.rebind? node = some (cursor.rebind node)) :
    c.rebindChecked node = (c.rebind node, true) := by
  have hheads : ∀ (cursors : List RunCursor) (first : Nat) (a b : MergeCursor), a.heads = b.heads →
      (offerAll first cursors a).heads = (offerAll first cursors b).heads := by
    intro cursors
    induction cursors with
    | nil => exact fun _ _ _ hab => hab
    | cons cursor cursors ih =>
      intro first a b hab
      rw [offerAll_cons, offerAll_cons]
      exact ih _ _ _ (by simp only [offer, hab])
  rw [rebindChecked, rebindFrom_eq node _ h, rebind, ofCursors_eq, Array.toList_map, Prod.mk.injEq]
  refine ⟨?_, rfl⟩
  have hleft := cursors_offerAll (c.cursors.toList.map (·.rebind node)) []
    { c with heads := [] } (by simp) rfl
  have hright := cursors_offerAll (c.cursors.toList.map (·.rebind node)) []
    ⟨c.cursors.map (·.rebind node), []⟩ (by simp) rfl
  have hsame := hheads (c.cursors.toList.map (·.rebind node)) 0 { c with heads := [] }
    ⟨c.cursors.map (·.rebind node), []⟩ rfl
  rw [List.length_nil] at hleft hright
  exact congr_arg₂ MergeCursor.mk (Array.ext' (hleft.trans hright.symm)) hsame

/-- A cursor that is bound to a node shows the merged row of the node, whatever it showed before. -/
theorem shows_rebind {c : MergeCursor} {all : List (List (List UInt64))} (h : c.Reads all)
    (node : Nat) :
    (c.rebind node).Shows (mergedRow all node) := by
  rw [rebind, ofCursors_eq, Array.toList_map]
  exact (merges_offerAll (forall₂_rebind h node) (by simp) rfl).shows_mergeSort

/-- Cursors bound to no node show nothing. -/
theorem shows_ofCursors_unbound (sources : List Adjacency) :
    (ofCursors (sources.map RunCursor.unbound).toArray).Shows [] := by
  have hshows : List.Forall₂ RunCursor.Shows (sources.map RunCursor.unbound)
      (sources.map fun _ => []) := by
    rw [List.forall₂_map_left_iff, List.forall₂_map_right_iff, List.forall₂_same]
    exact fun source _ => RunCursor.shows_unbound source
  refine ⟨_, merges_offerAll hshows (by simp) rfl, ?_, List.Pairwise.nil⟩
  simp

/-- What peeking leaves alone in every cursor, merging leaves alone in all of them. -/
theorem map_ofCursors {β : Type} (f : RunCursor → β) (hpeek : ∀ cursor, f cursor.peek.2 = f cursor)
    (cursors : Array RunCursor) : (ofCursors cursors).cursors.toList.map f = cursors.toList.map f := by
  have hcursors := cursors_offerAll cursors.toList [] ⟨cursors, []⟩ (by simp) rfl
  rw [List.length_nil, List.nil_append] at hcursors
  rw [ofCursors_eq, hcursors, List.map_map]
  exact List.map_congr_left fun cursor _ => hpeek cursor

/-- Merging cursors that are bound to a node is binding their merge to it. -/
theorem ofCursors_map_rebind (cursors : List RunCursor) (node : Nat) :
    ofCursors (cursors.map (·.rebind node)).toArray = (ofCursors cursors.toArray).rebind node := by
  have hsame := map_ofCursors (·.rebind node)
    (fun cursor => RunCursor.rebind_congr cursor.source_peek node) cursors.toArray
  rw [rebind]
  refine congrArg ofCursors (Array.ext' ?_)
  rw [Array.toList_map, hsame]

@[simp] theorem sources_rebind (c : MergeCursor) (node : Nat) : (c.rebind node).sources = c.sources := by
  rw [rebind, sources, map_ofCursors _ RunCursor.source_peek, Array.toList_map, List.map_map]
  rfl

theorem degrees_rebind {c : MergeCursor} {all : List (List (List UInt64))} (h : c.Reads all)
    (node : Nat) :
    (c.rebind node).degrees = (rowsOf all node).map List.length := by
  rw [rebind, degrees, map_ofCursors _ RunCursor.degree_peek, Array.toList_map, List.map_map]
  rw [Reads, sources, List.forall₂_map_left_iff] at h
  rw [rowsOf, List.map_map, ← List.forall₂_eq_eq_eq, List.forall₂_map_left_iff,
    List.forall₂_map_right_iff]
  refine h.imp fun cursor rows hholds => ?_
  simp [RunCursor.degree_rebind hholds]

theorem sum_degrees_ofCursors_unbound (sources : List Adjacency) :
    (ofCursors (sources.map RunCursor.unbound).toArray).degrees.sum = 0 := by
  rw [degrees, map_ofCursors _ RunCursor.degree_peek]
  simp [Function.comp_def, RunCursor.unbound]

theorem sources_ofCursors_unbound (sources : List Adjacency) :
    (ofCursors (sources.map RunCursor.unbound).toArray).sources = sources := by
  rw [MergeCursor.sources, map_ofCursors _ RunCursor.source_peek]
  simp [Function.comp_def, RunCursor.unbound]

end MergeCursor

end PackedGraph
