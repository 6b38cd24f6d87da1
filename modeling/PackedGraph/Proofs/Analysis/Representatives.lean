import PackedGraph.Proofs.Analysis.Pointers

/-!
# The smallest member represents its set

Disjoint sets are asked to unite, to find and to compare, in any order.  Finding and comparing leave every root
where it is, so after any requests the roots are those of the unions alone: `HoldClasses.after` is the step and
`HoldClasses.run` the run.  Hence an answer depends on the classes that the unions before it have made, and on
nothing else.

Main statement: `smallest_representatives`.
-/

namespace PackedGraph

/-! ## Requests -/

/-- What disjoint sets can be asked. -/
inductive SetRequest where
  /-- Unite the sets of two numbers. -/
  | union (left right : UInt64)
  /-- Find the representative of a number. -/
  | find (node : UInt64)
  /-- Tell whether two numbers are in one set. -/
  | sameSet (left right : UInt64)
  deriving DecidableEq

/-- What disjoint sets answer. -/
inductive SetAnswer where
  /-- It has been done. -/
  | done
  /-- This is the representative. -/
  | representative (node : Nat)
  /-- Whether they are in one set. -/
  | together (answer : Bool)
  deriving DecidableEq

namespace SetRequest

/-- The numbers that a request is about lie below a size. -/
def Below (size : UInt64) : SetRequest → Prop
  | union left right => left < size ∧ right < size
  | find node => node < size
  | sameSet left right => left < size ∧ right < size

instance (size : UInt64) : DecidablePred (Below size)
  | union _ _ => inferInstanceAs (Decidable (_ ∧ _))
  | find node => inferInstanceAs (Decidable (node < size))
  | sameSet _ _ => inferInstanceAs (Decidable (_ ∧ _))

/-- The numbers that a request unites, if it unites any. -/
def united? : SetRequest → Option (Nat × Nat)
  | union left right => some (left.toNat, right.toNat)
  | find _ => none
  | sameSet _ _ => none

/-- All pairs that requests unite, in order. -/
def unions (requests : List SetRequest) : List (Nat × Nat) := requests.filterMap united?

/-- What a request has to be answered when these pairs have been united. -/
def Answered (pairs : List (Nat × Nat)) : SetRequest → SetAnswer → Prop
  | union _ _, .done => True
  | find node, .representative least => IsLeast {other | DisjointSets.Connected pairs node.toNat other} least
  | sameSet left right, .together answer => answer = true ↔ DisjointSets.Connected pairs left.toNat right.toNat
  | _, _ => False

/-- Every request is answered as the pairs that have been united before it demand. -/
inductive AllAnswered : List (Nat × Nat) → List SetRequest → List SetAnswer → Prop
  /-- Nothing has been asked. -/
  | nil (pairs : List (Nat × Nat)) : AllAnswered pairs [] []
  /-- One request is answered, and what it unites counts for those after it. -/
  | cons {pairs : List (Nat × Nat)} {request : SetRequest} {requests : List SetRequest} {answer : SetAnswer}
      {answers : List SetAnswer} (first : request.Answered pairs answer)
      (others : AllAnswered (pairs ++ request.united?.toList) requests answers) :
      AllAnswered pairs (request :: requests) (answer :: answers)

variable {size : UInt64} {request : SetRequest} {requests : List SetRequest}

theorem unions_cons (request : SetRequest) (requests : List SetRequest) :
    unions (request :: requests) = request.united?.toList ++ unions requests := by
  cases request <;> rfl

/-- What a request unites lies below the size as well. -/
theorem Below.united (h : request.Below size) :
    ∀ pair ∈ request.united?.toList, pair.1 < size.toNat ∧ pair.2 < size.toNat := by
  cases request with
  | union left right =>
    intro pair hpair
    rw [List.mem_singleton.mp hpair]
    exact h
  | find node => exact fun pair hpair => absurd hpair List.not_mem_nil
  | sameSet left right => exact fun pair hpair => absurd hpair List.not_mem_nil

end SetRequest

/-! ## Answers -/

namespace DisjointSets

/-- Answer one request. -/
def answer (s : DisjointSets) : SetRequest → SetAnswer × DisjointSets
  | .union left right => (.done, s.union left.toNat right.toNat)
  | .find node => let (root, s) := s.find node.toNat; (.representative root, s)
  | .sameSet left right => let (same, s) := s.sameSet left.toNat right.toNat; (.together same, s)

/-- Answer several requests, one after the other. -/
def answers (s : DisjointSets) : List SetRequest → List SetAnswer × DisjointSets
  | [] => ([], s)
  | request :: requests =>
    let (first, s) := s.answer request
    let (others, s) := s.answers requests
    (first :: others, s)

end DisjointSets

namespace Pointers

/-- Answer one request with loops over words, each cut off after some turns. -/
def answer? (turns : Nat) (pointers : Paged UInt64) : SetRequest → Option (SetAnswer × Paged UInt64)
  | .union left right => (union? turns turns left right pointers).map fun pointers => (.done, pointers)
  | .find node => (find? turns node pointers).map fun (root, pointers) => (.representative root.toNat, pointers)
  | .sameSet left right => (sameSet? turns left right pointers).map fun (same, pointers) => (.together same, pointers)

/-- Answer several requests, one after the other, unless the loops for one do not end. -/
def answers? (turns : Nat) (pointers : Paged UInt64) : List SetRequest → Option (List SetAnswer × Paged UInt64)
  | [] => some ([], pointers)
  | request :: requests =>
    (answer? turns pointers request).bind fun (first, pointers) =>
      (answers? turns pointers requests).map fun (others, pointers) => (first :: others, pointers)

end Pointers

namespace DisjointSets

open SetRequest

variable {s : DisjointSets} {size : UInt64} {request : SetRequest} {requests : List SetRequest}
  {pairs : List (Nat × Nat)} {turns : Nat}

/-! ## The loops end -/

theorem size_answer (s : DisjointSets) (request : SetRequest) : (s.answer request).2.size = s.size := by
  cases request with
  | union left right => exact s.size_union _ _
  | find node => exact (find_spec _ s).2.1
  | sameSet left right => exact (find_find_spec _ _ s).2.2.1

theorem toNat_lt (hsize : s.size = size.toNat) {node : UInt64} (h : node < size) : node.toNat < s.size :=
  hsize ▸ UInt64.lt_iff_toNat_lt.mp h

/-- The loops for one request end, and leave the words of the answered sets. -/
theorem answer?_words (hsize : s.size = size.toNat) (hbelow : request.Below size) (hturns : size.toNat ≤ turns) :
    Pointers.answer? turns (.ofArray s.words) request =
      some ((s.answer request).1, .ofArray (s.answer request).2.words) := by
  have hword : s.size ≤ UInt64.size := hsize ▸ size.toNat_lt_size.le
  have henough : s.size ≤ turns := hsize ▸ hturns
  cases request with
  | union left right =>
    have hleft := toNat_lt hsize hbelow.1
    have hturn : 0 < turns := (Nat.zero_lt_of_lt hleft).trans_le henough
    have hunion := Pointers.union?_words hword hleft (toNat_lt hsize hbelow.2) henough hturn
    rw [UInt64.ofNat_toNat, UInt64.ofNat_toNat] at hunion
    rw [Pointers.answer?, hunion]
    rfl
  | find node =>
    have hnode := toNat_lt hsize hbelow
    have hfind := Pointers.find?_words node.toNat hword hnode (hnode.trans_le henough)
    have hroot : (s.find node.toNat).1 < s.size := (find_spec _ s).1 ▸ root_lt_size hnode
    rw [UInt64.ofNat_toNat] at hfind
    simp only [Pointers.answer?, hfind, Option.map_some, Pointers.toNat_ofNat hword hroot, answer]
  | sameSet left right =>
    have hsame := Pointers.sameSet?_words hword (toNat_lt hsize hbelow.1) (toNat_lt hsize hbelow.2) henough
    rw [UInt64.ofNat_toNat, UInt64.ofNat_toNat] at hsame
    rw [Pointers.answer?, hsame]
    rfl

/-- So do the loops for all requests. -/
theorem answers?_words (hsize : s.size = size.toNat) (hbelow : ∀ request ∈ requests, request.Below size)
    (hturns : size.toNat ≤ turns) :
    Pointers.answers? turns (.ofArray s.words) requests =
      some ((s.answers requests).1, .ofArray (s.answers requests).2.words) := by
  induction requests generalizing s with
  | nil => rfl
  | cons request requests ih =>
    rw [List.forall_mem_cons] at hbelow
    rw [Pointers.answers?, answer?_words hsize hbelow.1 hturns, Option.bind_some]
    dsimp only
    rw [ih ((s.size_answer request).trans hsize) hbelow.2]
    rfl

/-! ## Roots after requests -/

/-- Sets of numbers below a size hold the classes of some pairs: they have the roots that uniting those makes. -/
structure HoldClasses (size : UInt64) (pairs : List (Nat × Nat)) (s : DisjointSets) : Prop where
  /-- There are so many numbers. -/
  size_eq : s.size = size.toNat
  /-- The pairs are among them. -/
  lt : ∀ pair ∈ pairs, pair.1 < size.toNat ∧ pair.2 < size.toNat
  /-- Every root is that of the unions. -/
  root_eq : ∀ node, s.root node = ((new size.toNat).unionAll pairs).root node

namespace HoldClasses

theorem start (size : UInt64) : HoldClasses size [] (new size.toNat) where
  size_eq := size_new _
  lt _ h := absurd h List.not_mem_nil
  root_eq _ := rfl

variable (h : HoldClasses size pairs s)
include h

/-- Two numbers have one root exactly if the pairs connect them. -/
theorem root_eq_iff (left right : Nat) : s.root left = s.root right ↔ Connected pairs left right := by
  rw [h.root_eq, h.root_eq, root_unionAll_new_iff h.lt]

/-- A root is the smallest number that the pairs connect with a number. -/
theorem isLeast (node : Nat) : IsLeast {other | Connected pairs node other} (s.root node) := by
  have hleast := s.isLeast_root node
  simp only [h.root_eq_iff] at hleast
  exact hleast

/-- The next answer is right. -/
theorem answered (request : SetRequest) : request.Answered pairs (s.answer request).1 := by
  cases request with
  | union left right => trivial
  | find node =>
    have hleast := h.isLeast node.toNat
    rw [← (find_spec node.toNat s).1] at hleast
    exact hleast
  | sameSet left right =>
    obtain ⟨hfirst, hsecond, -⟩ := find_find_spec left.toNat right.toNat s
    have hiff := h.root_eq_iff left.toNat right.toNat
    rw [← hfirst, ← hsecond, ← beq_iff_eq] at hiff
    exact hiff

/-- A request adds to the pairs what it unites. -/
theorem after (hbelow : request.Below size) :
    HoldClasses size (pairs ++ request.united?.toList) (s.answer request).2 := by
  refine ⟨(s.size_answer request).trans h.size_eq, ?_, fun node => ?_⟩
  · intro pair hpair
    exact (List.mem_append.mp hpair).elim (h.lt pair) (hbelow.united pair)
  · -- only a union adds a pair; the others may move numbers, but to no other set
    cases request with
    | union left right =>
      have hsize : ((new size.toNat).unionAll pairs).size = size.toNat := by rw [size_unionAll, size_new]
      have hunited := root_union (s := s) (toNat_lt h.size_eq hbelow.1) (toNat_lt h.size_eq hbelow.2) node
      have hunitedAll := root_union (s := (new size.toNat).unionAll pairs) (toNat_lt hsize hbelow.1)
        (toNat_lt hsize hbelow.2) node
      simp only [h.root_eq] at hunited
      rw [unionAll, united?, Option.toList_some, List.foldl_append]
      exact hunited.trans hunitedAll.symm
    | find found =>
      have hkept := (find_spec found.toNat s).2.2 node
      rw [united?, Option.toList_none, List.append_nil]
      exact hkept.trans (h.root_eq node)
    | sameSet left right =>
      have hkept := (find_find_spec left.toNat right.toNat s).2.2.2 node
      rw [united?, Option.toList_none, List.append_nil]
      exact hkept.trans (h.root_eq node)

/-- All requests add what they unite, and all answers are right. -/
theorem run (hbelow : ∀ request ∈ requests, request.Below size) :
    HoldClasses size (pairs ++ unions requests) (s.answers requests).2 ∧
      AllAnswered pairs requests (s.answers requests).1 := by
  induction requests generalizing s pairs with
  | nil =>
    refine ⟨?_, .nil pairs⟩
    simpa [unions, answers] using h
  | cons request requests ih =>
    rw [List.forall_mem_cons] at hbelow
    obtain ⟨hafter, hanswered⟩ := ih (h.after hbelow.1) hbelow.2
    rw [List.append_assoc, ← unions_cons] at hafter
    exact ⟨hafter, .cons (h.answered request) hanswered⟩

end HoldClasses

/-! ## Whatever is asked -/

/-- All numbers of sets with the same connections have the same representatives. -/
theorem HoldClasses.roots_congr {t : DisjointSets} {others : List (Nat × Nat)} (h : HoldClasses size pairs s)
    (ht : HoldClasses size others t) (hsame : ∀ pair, pair ∈ pairs ↔ pair ∈ others) : s.roots = t.roots := by
  have hroot : s.root = t.root := funext fun node => by
    have hleast := h.isLeast node
    simp only [Connected, hsame] at hleast
    exact hleast.unique (ht.isLeast node)
  simp only [roots_eq, h.size_eq, ht.size_eq, hroot]

/-- A request that unites nothing changes no representative. -/
theorem roots_answer (hnone : request.united? = none) : (s.answer request).2.roots = s.roots := by
  have hroot : (s.answer request).2.root = s.root := by
    cases request with
    | union left right => exact absurd hnone (Option.some_ne_none _)
    | find node => exact funext (find_spec _ s).2.2
    | sameSet left right => exact funext (find_find_spec _ _ s).2.2.2
  simp only [roots_eq, size_answer, hroot]

end DisjointSets

/-- What disjoint sets of some size have answered, and what they have become, after some requests. -/
structure SmallestRepresentatives (size : UInt64) (requests : List SetRequest) (answers : List SetAnswer)
    (s : DisjointSets) : Prop where
  /-- The loops over the words end, with these answers and with the words of these sets: as many turns as there
  are numbers are enough for every loop. -/
  ends : ∀ turns, size.toNat ≤ turns →
    Pointers.answers? turns (Pointers.new size) requests = some (answers, .ofArray s.words)
  /-- There is a word for every number. -/
  size_eq : s.words.size = size.toNat
  /-- No word points at a larger number. -/
  descending : ∀ node (h : node < s.words.size), s.words[node].toNat ≤ node
  /-- A number that was asked for was answered by the smallest one of its class at the time, and whether two were
  in one set was answered by whether they were in one class. -/
  answered : SetRequest.AllAnswered [] requests answers
  /-- The representatives are now the smallest members of the classes of all unions. -/
  least : ∀ node (h : node < s.roots.size),
    IsLeast {other | DisjointSets.Connected (SetRequest.unions requests) node other} s.roots[node]
  /-- Every number has one. -/
  size_roots : s.roots.size = size.toNat
  /-- Finding and comparing change none of them. -/
  kept : ∀ request, request.united? = none → (s.answer request).2.roots = s.roots
  /-- They are the same after any other requests that unite the same pairs, in whatever order and however often,
  whatever else is asked in between. -/
  order : ∀ others : List SetRequest, (∀ request ∈ others, request.Below size) →
    (∀ pair, pair ∈ SetRequest.unions others ↔ pair ∈ SetRequest.unions requests) →
      ((DisjointSets.new size.toNat).answers others).2.roots = s.roots

/-- **The smallest member represents its set.**  Whatever is asked of disjoint sets, about numbers below their
size: every loop ends, no number ever points at a larger one, and every answer depends on nothing but the classes
that the unions before it have made.  A class is represented by its smallest member.  So neither the order of
unions nor what is found in between has any influence on the representatives. -/
theorem smallest_representatives (size : UInt64) (requests : List SetRequest)
    (hbelow : ∀ request ∈ requests, request.Below size) :
    let reached := (DisjointSets.new size.toNat).answers requests
    SmallestRepresentatives size requests reached.1 reached.2 := by
  intro reached
  obtain ⟨hrun, hanswered⟩ := (DisjointSets.HoldClasses.start size).run hbelow
  have hword : reached.2.size ≤ UInt64.size := hrun.size_eq ▸ size.toNat_lt_size.le
  have hrootsSize : reached.2.roots.size = size.toNat := by
    rw [DisjointSets.roots_eq, List.size_toArray, List.length_map, List.length_range]
    exact hrun.size_eq
  constructor
  case ends =>
    intro turns hturns
    rw [← DisjointSets.words_new]
    exact DisjointSets.answers?_words (DisjointSets.size_new _) hbelow hturns
  case size_eq => exact (Array.size_map ..).trans hrun.size_eq
  case descending =>
    intro node h
    have hnode : node < reached.2.size := by rwa [DisjointSets.words, Array.size_map] at h
    have hparent : reached.2.parent node < reached.2.size := (reached.2.parent_le node).trans_lt hnode
    have hread := DisjointSets.getElem?_words hnode
    rw [Array.getElem?_eq_getElem h, Option.some.injEq] at hread
    rw [hread, Pointers.toNat_ofNat hword hparent]
    exact reached.2.parent_le node
  case answered => exact hanswered
  case least =>
    intro node h
    simp only [DisjointSets.roots_eq, List.getElem_toArray, List.getElem_map, List.getElem_range]
    exact hrun.isLeast node
  case size_roots => exact hrootsSize
  case kept => exact fun request hnone => DisjointSets.roots_answer hnone
  case order =>
    intro others hothers hsame
    exact ((DisjointSets.HoldClasses.start size).run hothers).1.roots_congr hrun hsame

/-- What is asked of six numbers: three unions, with searches and comparisons in between. -/
def sixRequests : List SetRequest :=
  [.union 5 3, .find 5, .union 4 3, .sameSet 5 1, .union 1 4, .find 5, .sameSet 5 1, .sameSet 0 1]

/-- A search for five ends at three at first, and at one when four has been united with one. -/
theorem smallest_representatives_of_six :
    (∀ request ∈ sixRequests, request.Below 6) ∧
      ∃ s, SmallestRepresentatives 6 sixRequests [.done, .representative 3, .done, .together false, .done,
        .representative 1, .together true, .together false] s := by
  have hbelow : ∀ request ∈ sixRequests, request.Below 6 := by decide
  have h := smallest_representatives 6 sixRequests hbelow
  have hanswers : ((DisjointSets.new (6 : UInt64).toNat).answers sixRequests).1 =
      [.done, .representative 3, .done, .together false, .done, .representative 1, .together true,
        .together false] := by cbv
  simp only [hanswers] at h
  exact ⟨hbelow, _, h⟩

end PackedGraph
