import Mathlib.Data.List.Forall2
import PackedGraph.Proofs.Storage.Flat

/-!
# Paged arrays answer as flat ones do

The reference is a flat array.  Everything that can be asked of a paged array either concerns the element at
one index, which it looks at and changes, or puts one value in place of all elements: that is its `Effect`.
An effect on the reference is plain, and a paged array that is asked anything, in whatever order, answers as
the reference does and has the same elements afterwards.

Requests are for plain elements, for words that several workers change, and for numbers that are kept as
their bits; each kind has its effects, and the rest is proved once.  A shelf holds several arrays, to which
clones are added: what is asked of one array says nothing about the others.

Main statements: `answers_ofArray` for any kind of requests, and `paged_array_as_flat`.
-/

namespace PackedGraph.Paged

/-! ## Answers and effects -/

/-- What an array says. -/
inductive Answer (α : Type) where
  /-- There is no such element, and nothing has been done. -/
  | refused
  /-- It has been done. -/
  | done
  /-- An element. -/
  | element (value : α)
  /-- A yes or a no. -/
  | flag (holds : Bool)
  deriving Repr, DecidableEq, Inhabited

/-- What a request does to a flat array. -/
inductive Effect (α : Type) where
  /-- Look at the element at an index, answer, and put another one there. -/
  | at (index : Nat) (action : α → Answer α × α)
  /-- Put one value everywhere. -/
  | everywhere (value : α)

variable {α γ : Type}

/-- The effect on a flat array, which refuses an index past its end. -/
def Effect.on (xs : Array α) : Effect α → Answer α × Array α
  | .at index action =>
    match xs[index]? with
    | some x => ((action x).1, xs.setIfInBounds index (action x).2)
    | none => (.refused, xs)
  | .everywhere value => (.done, Array.replicate xs.size value)

/-! ## Requests -/

/-- What can be asked of an array. -/
inductive Request (α : Type) where
  /-- Show an element. -/
  | get (index : Nat)
  /-- Replace an element. -/
  | set (index : Nat) (value : α)
  /-- Change an element. -/
  | update (index : Nat) (f : α → α)
  /-- Replace all elements. -/
  | fill (value : α)

/-- What can be asked of words that several workers change. -/
inductive WordRequest where
  /-- Show a word. -/
  | get (index : Nat)
  /-- Replace a word. -/
  | set (index : Nat) (value : UInt64)
  /-- Add to a word, and show the word before. -/
  | getAndAdd (index : Nat) (delta : UInt64)
  /-- Replace a word if it is the expected one, and tell whether it was. -/
  | compareAndSet (index : Nat) (expected new : UInt64)
  /-- Replace a word if it is the expected one, and show the word before. -/
  | compareAndExchange (index : Nat) (expected new : UInt64)
  /-- Change a word by trying, which fails so many times, and show the word afterwards. -/
  | update (index : Nat) (f : UInt64 → UInt64) (failures : Nat)

/-- What can be asked of numbers that are kept as their bits. -/
inductive NumberRequest where
  /-- Show a number. -/
  | get (index : Nat)
  /-- Replace a number. -/
  | set (index : Nat) (value : Binary64)
  /-- Add to a number, and show the number before. -/
  | getAndAdd (index : Nat) (delta : Float)

/-- Answer with what has come of a request, or refuse it and leave the array as it was. -/
def orRefuse (a : Paged α) (result : Option (Answer α × Paged α)) : Answer α × Paged α :=
  result.getD (.refused, a)

/-- Answer a request. -/
def Request.answer (a : Paged α) : Request α → Answer α × Paged α
  | .get index => a.orRefuse ((a.get? index).map fun value => (.element value, a))
  | .set index value => a.orRefuse ((a.set? index value).map fun a => (.done, a))
  | .update index f => a.orRefuse ((a.update? index f).map fun a => (.done, a))
  | .fill value => (.done, a.fill value)

/-- Answer a request. -/
def WordRequest.answer (a : Paged UInt64) : WordRequest → Answer UInt64 × Paged UInt64
  | .get index => a.orRefuse ((a.get? index).map fun word => (.element word, a))
  | .set index value => a.orRefuse ((a.set? index value).map fun a => (.done, a))
  | .getAndAdd index delta =>
    a.orRefuse ((a.getAndAdd? index delta).map fun (before, a) => (.element before, a))
  | .compareAndSet index expected new =>
    a.orRefuse ((a.compareAndSet? index expected new).map fun (done, a) => (.flag done, a))
  | .compareAndExchange index expected new =>
    a.orRefuse ((a.compareAndExchange? index expected new).map fun (before, a) => (.element before, a))
  | .update index f failures =>
    a.orRefuse ((a.updateByTrying? index f failures).map fun (after, a) => (.element after, a))

/-- Answer a request. -/
def NumberRequest.answer (a : Paged Binary64) : NumberRequest → Answer Binary64 × Paged Binary64
  | .get index => a.orRefuse ((a.get? index).map fun number => (.element number, a))
  | .set index value => a.orRefuse ((a.set? index value).map fun a => (.done, a))
  | .getAndAdd index delta =>
    a.orRefuse ((a.addTo? index delta).map fun (before, a) => (.element before, a))

/-! ## Effects of the requests -/

/-- The effect of a request. -/
def Request.effect : Request α → Effect α
  | .get index => .at index fun x => (.element x, x)
  | .set index value => .at index fun _ => (.done, value)
  | .update index f => .at index fun x => (.done, f x)
  | .fill value => .everywhere value

/-- The effect of a request; sums are taken modulo `2 ^ 64`. -/
def WordRequest.effect : WordRequest → Effect UInt64
  | .get index => .at index fun x => (.element x, x)
  | .set index value => .at index fun _ => (.done, value)
  | .getAndAdd index delta => .at index fun x => (.element x, x + delta)
  | .compareAndSet index expected new =>
    .at index fun x => (.flag (decide (x = expected)), if x = expected then new else x)
  | .compareAndExchange index expected new =>
    .at index fun x => (.element x, if x = expected then new else x)
  | .update index f _ => .at index fun x => (.element (f x), f x)

/-- The effect of a request. -/
def NumberRequest.effect : NumberRequest → Effect Binary64
  | .get index => .at index fun x => (.element x, x)
  | .set index value => .at index fun _ => (.done, value)
  | .getAndAdd index delta => .at index fun x => (.element x, .ofFloat (x.toFloat + delta))

/-- An array that is cut from a flat one answers as the effects say, and is cut from what they leave. -/
def AnswersBy (answer : Paged α → γ → Answer α × Paged α) (effect : γ → Effect α) : Prop :=
  ∀ (request : γ) (xs : Array α),
    answer (ofArray xs) request = (((effect request).on xs).1, ofArray ((effect request).on xs).2)

variable {xs : Array α} {index : Nat}

/-- Nothing changes where an element is put back. -/
theorem setIfInBounds_self {x : α} (h : xs[index]? = some x) : xs.setIfInBounds index x = xs := by
  obtain ⟨hindex, rfl⟩ := Array.getElem?_eq_some_iff.mp h
  rw [Array.setIfInBounds_def, dif_pos hindex, Array.set_getElem_self]

/-- What is done with the element at an index, if there is one. -/
theorem orRefuse_at {action : α → Answer α × α} {result : Option (Answer α × Paged α)}
    (h : result = (xs[index]?).map fun x => ((action x).1, ofArray (xs.setIfInBounds index (action x).2))) :
    (ofArray xs).orRefuse result =
      (((Effect.at index action).on xs).1, ofArray ((Effect.at index action).on xs).2) := by
  rw [h, Effect.on]
  cases xs[index]? <;> rfl

/-- An element that is shown stays where it is. -/
theorem map_get?_ofArray (xs : Array α) (index : Nat) :
    ((ofArray xs).get? index).map (fun x => (Answer.element x, ofArray xs)) =
      (xs[index]?).map fun x => (.element x, ofArray (xs.setIfInBounds index x)) := by
  rw [get?_ofArray]
  refine Option.map_congr fun x h => ?_
  rw [setIfInBounds_self h]

theorem map_set?_ofArray (xs : Array α) (index : Nat) (value : α) :
    ((ofArray xs).set? index value).map (fun a => (Answer.done (α := α), a)) =
      (xs[index]?).map fun _ => (.done, ofArray (xs.setIfInBounds index value)) := by
  rw [set?, covers, get?_ofArray, put_ofArray]
  cases xs[index]? <;> rfl

theorem update?_ofArray (xs : Array α) (index : Nat) (f : α → α) :
    (ofArray xs).update? index f = (xs[index]?).map fun x => ofArray (xs.setIfInBounds index (f x)) := by
  rw [update?, covers, get?_ofArray, modify_ofArray]
  cases h : xs[index]? with
  | none => rfl
  | some x =>
    have hmodify : xs.modify index f = xs.setIfInBounds index (f x) :=
      modify_eq_setIfInBounds fun y hy => by rw [Option.some.inj (h.symm.trans hy)]
    rw [hmodify]
    rfl

theorem answersBy_request : AnswersBy (Request.answer (α := α)) Request.effect := by
  intro request xs
  cases request with
  | get index => exact orRefuse_at (map_get?_ofArray xs index)
  | set index value => exact orRefuse_at (map_set?_ofArray xs index value)
  | update index f =>
    refine orRefuse_at ?_
    rw [update?_ofArray, Option.map_map]
    rfl
  | fill value =>
    rw [Request.answer, fill_ofArray]
    rfl

/-- A word is exchanged if it is the expected one, and stays otherwise. -/
theorem compareAndExchange?_ofArray (words : Array UInt64) (index : Nat) (expected new : UInt64) :
    (ofArray words).compareAndExchange? index expected new = (words[index]?).map fun x =>
      (x, ofArray (words.setIfInBounds index (if x = expected then new else x))) := by
  rw [compareAndExchange?, get?_ofArray]
  refine Option.map_congr fun x h => ?_
  by_cases heq : x = expected
  · rw [if_pos heq, if_pos heq, put_ofArray]
  · rw [if_neg heq, if_neg heq, setIfInBounds_self h]

/-- However often a try fails, the one that does not finds the word as it was read. -/
theorem tryUpdate?_ofArray {words : Array UInt64} {word : UInt64} (h : words[index]? = some word)
    (f : UInt64 → UInt64) (failures : Nat) :
    (ofArray words).tryUpdate? index f word failures =
      some (f word, ofArray (words.setIfInBounds index (f word))) := by
  induction failures with
  | zero =>
    rw [tryUpdate?, compareAndExchange?_ofArray, h, Option.map_some, Option.bind_some, if_pos rfl]
    exact if_pos rfl
  | succ failures ih => rw [tryUpdate?, get?_ofArray, h, Option.bind_some, ih]

theorem updateByTrying?_ofArray (words : Array UInt64) (index : Nat) (f : UInt64 → UInt64) (failures : Nat) :
    (ofArray words).updateByTrying? index f failures = (words[index]?).map fun x =>
      (f x, ofArray (words.setIfInBounds index (f x))) := by
  rw [updateByTrying?, get?_ofArray]
  cases h : words[index]? with
  | none => rfl
  | some word => rw [Option.bind_some, tryUpdate?_ofArray h, Option.map_some]

theorem answersBy_wordRequest : AnswersBy WordRequest.answer WordRequest.effect := by
  intro request xs
  cases request with
  | get index => exact orRefuse_at (map_get?_ofArray xs index)
  | set index value => exact orRefuse_at (map_set?_ofArray xs index value)
  | getAndAdd index delta =>
    refine orRefuse_at ?_
    rw [getAndAdd?, get?_ofArray, Option.map_map]
    refine Option.map_congr fun x _ => ?_
    rw [Function.comp_apply, put_ofArray]
  | compareAndSet index expected new =>
    refine orRefuse_at ?_
    rw [compareAndSet?, compareAndExchange?_ofArray, Option.map_map, Option.map_map]
    rfl
  | compareAndExchange index expected new =>
    refine orRefuse_at ?_
    rw [compareAndExchange?_ofArray, Option.map_map]
    rfl
  | update index f failures =>
    refine orRefuse_at ?_
    rw [updateByTrying?_ofArray, Option.map_map]
    rfl

theorem answersBy_numberRequest : AnswersBy NumberRequest.answer NumberRequest.effect := by
  intro request xs
  cases request with
  | get index => exact orRefuse_at (map_get?_ofArray xs index)
  | set index value => exact orRefuse_at (map_set?_ofArray xs index value)
  | getAndAdd index delta =>
    refine orRefuse_at ?_
    rw [addTo?, get?_ofArray, Option.map_map]
    refine Option.map_congr fun x _ => ?_
    rw [Function.comp_apply, put_ofArray]

/-! ## Requests one after the other -/

/-- Answer requests one after the other. -/
def answers {σ ρ : Type} (answer : σ → γ → ρ × σ) : List γ → σ → List ρ × σ
  | [], s => ([], s)
  | request :: requests, s =>
    let (said, s) := answer s request
    let (later, s) := answers answer requests s
    (said :: later, s)

/-- One request keeps two sides together, so any number of them does. -/
theorem answers_map {σ τ ρ : Type} {answer : σ → γ → ρ × σ} {reference : τ → γ → ρ × τ} {g : τ → σ}
    (h : ∀ t request, answer (g t) request = ((reference t request).1, g (reference t request).2))
    (requests : List γ) (t : τ) :
    answers answer requests (g t) =
      ((answers reference requests t).1, g (answers reference requests t).2) := by
  induction requests generalizing t with
  | nil => rfl
  | cons request requests ih => simp only [answers, h, ih]

/-- What one request keeps, any number of them keep. -/
theorem answers_induction {σ ρ : Type} {answer : σ → γ → ρ × σ} (kept : σ → Prop) {requests : List γ}
    (h : ∀ request ∈ requests, ∀ s, kept s → kept (answer s request).2) {s : σ} (hs : kept s) :
    kept (answers answer requests s).2 := by
  induction requests generalizing s with
  | nil => exact hs
  | cons request requests ih =>
    exact ih (fun later hlater => h later (List.mem_cons_of_mem _ hlater)) (h request List.mem_cons_self s hs)

/-- The flat reference of a kind of requests. -/
def flatly (effect : γ → Effect α) (xs : Array α) (request : γ) : Answer α × Array α := (effect request).on xs

theorem size_flatly (effect : γ → Effect α) (xs : Array α) (request : γ) :
    (flatly effect xs request).2.size = xs.size := by
  rw [flatly]
  cases effect request with
  | «at» index action =>
    rw [Effect.on]
    cases xs[index]? with
    | none => rfl
    | some x => exact Array.size_setIfInBounds
  | everywhere value => exact Array.size_replicate

/-! ## Several arrays -/

/-- What can be asked of a shelf. -/
inductive ShelfRequest (γ : Type) where
  /-- Ask one of the arrays. -/
  | ask (place : Nat) (request : γ)
  /-- Put a clone of one of the arrays at the end. -/
  | clone (place : Nat)

/-- Answer a request to a shelf, where the arrays answer as they do. -/
def onShelf {σ : Type} (answer : σ → γ → Answer α × σ) (shelf : List σ) :
    ShelfRequest γ → Answer α × List σ
  | .ask place request =>
    match shelf[place]? with
    | some a => ((answer a request).1, shelf.set place (answer a request).2)
    | none => (.refused, shelf)
  | .clone place =>
    match shelf[place]? with
    | some a => (.done, shelf ++ [a])
    | none => (.refused, shelf)

theorem onShelf_map {σ τ : Type} {answer : σ → γ → Answer α × σ} {reference : τ → γ → Answer α × τ}
    {g : τ → σ}
    (h : ∀ t request, answer (g t) request = ((reference t request).1, g (reference t request).2))
    (shelf : List τ) (request : ShelfRequest γ) :
    onShelf answer (shelf.map g) request =
      ((onShelf reference shelf request).1, (onShelf reference shelf request).2.map g) := by
  cases request with
  | ask place request =>
    simp only [onShelf, List.getElem?_map]
    cases shelf[place]? with
    | none => rfl
    | some t => simp only [Option.map_some, h, List.map_set]
  | clone place =>
    simp only [onShelf, List.getElem?_map]
    cases shelf[place]? with
    | none => rfl
    | some t => simp only [Option.map_some, List.map_append, List.map_singleton]

/-- What every array on a shelf has, they keep. -/
theorem forall_onShelf {σ : Type} {answer : σ → γ → Answer α × σ} {kept : σ → Prop}
    (h : ∀ a request, kept a → kept (answer a request).2) (request : ShelfRequest γ) {shelf : List σ}
    (hshelf : ∀ a ∈ shelf, kept a) : ∀ a ∈ (onShelf answer shelf request).2, kept a := by
  cases request with
  | ask place request =>
    rw [onShelf]
    cases hplace : shelf[place]? with
    | none => exact hshelf
    | some asked =>
      intro a ha
      rcases List.mem_or_eq_of_mem_set ha with hmem | rfl
      · exact hshelf a hmem
      · exact h asked request (hshelf asked (List.mem_of_getElem? hplace))
  | clone place =>
    rw [onShelf]
    cases hplace : shelf[place]? with
    | none => exact hshelf
    | some original =>
      intro a ha
      rcases List.mem_append.mp ha with hmem | hclone
      · exact hshelf a hmem
      · rw [List.mem_singleton.mp hclone]
        exact hshelf original (List.mem_of_getElem? hplace)

/-- An array that is not asked itself stays as it is. -/
theorem getElem?_onShelf {σ : Type} (answer : σ → γ → Answer α × σ) {shelf : List σ} {place : Nat}
    {request : ShelfRequest γ} (hplace : place < shelf.length) (hasked : ∀ r, request ≠ .ask place r) :
    (onShelf answer shelf request).2[place]? = shelf[place]? := by
  cases request with
  | ask asked r =>
    have hne : asked ≠ place := fun heq => hasked r (heq ▸ rfl)
    rw [onShelf]
    cases shelf[asked]? with
    | none => rfl
    | some a => exact List.getElem?_set_ne hne
  | clone original =>
    rw [onShelf]
    cases shelf[original]? with
    | none => rfl
    | some a => exact List.getElem?_append_left hplace

/-! ## A paged array as a flat one -/

/-- The index that an effect is about; none where it is about all elements. -/
def Effect.index? : Effect α → Option Nat
  | .at index _ => some index
  | .everywhere _ => none

/-- Whether an effect answers wherever there is an element. -/
def Effect.Speaks (effect : Effect α) : Prop :=
  ∀ index action, effect = .at index action → ∀ x, (action x).1 ≠ .refused

theorem Request.speaks_effect (request : Request α) : request.effect.Speaks := by
  intro index action h x
  cases request <;> cases h <;> simp

theorem WordRequest.speaks_effect (request : WordRequest) : request.effect.Speaks := by
  intro index action h x
  cases request <;> cases h <;> simp

theorem NumberRequest.speaks_effect (request : NumberRequest) : request.effect.Speaks := by
  intro index action h x
  cases request <;> cases h <;> simp

/-- What an array in pages has in common with a flat array, and how it answers the next request. -/
structure ActsFlat (answer : Paged α → γ → Answer α × Paged α) (effect : γ → Effect α) (size : Nat)
    (a : Paged α) (xs : Array α) : Prop where
  /-- It has the same elements in the order of their indices. -/
  toList_eq : a.toList = xs.toList
  /-- There are exactly as many as its size. -/
  length_eq : a.toList.length = size
  /-- The size stays what it was. -/
  size_eq : a.size = size
  /-- At every index it has the same element. -/
  get?_eq : ∀ index, a.get? index = xs[index]?
  /-- It refuses what is asked of an index just in case the index is past its end. -/
  refused_iff : ∀ request index, (effect request).index? = some index →
    ((answer a request).1 = .refused ↔ size ≤ index)
  /-- Then nothing changes. -/
  unchanged : ∀ request index, (effect request).index? = some index → size ≤ index → (answer a request).2 = a
  /-- What is asked of an index changes no other. -/
  others : ∀ request index, (effect request).index? = some index →
    ∀ other, other ≠ index → (answer a request).2.get? other = a.get? other

theorem Effect.exists_at {effect : Effect α} {index : Nat} (h : effect.index? = some index) :
    ∃ action, effect = .at index action := by
  cases effect with
  | «at» place action => exact ⟨action, by rw [Option.some.inj h]⟩
  | everywhere value => exact absurd h (Option.some_ne_none index).symm

/-- An array that is cut from a flat one acts as it does. -/
theorem actsFlat_ofArray {answer : Paged α → γ → Answer α × Paged α} {effect : γ → Effect α}
    (hanswers : AnswersBy answer effect) (hspeaks : ∀ request, (effect request).Speaks) {size : Nat}
    (hsize : xs.size = size) : ActsFlat answer effect size (ofArray xs) xs where
  toList_eq := toList_ofArray xs
  length_eq := by rw [toList_ofArray, Array.length_toList, hsize]
  size_eq := hsize
  get?_eq := get?_ofArray xs
  refused_iff request index hindex := by
    obtain ⟨action, heffect⟩ := Effect.exists_at hindex
    rw [hanswers, heffect, Effect.on, ← hsize, ← Array.getElem?_eq_none_iff]
    cases xs[index]? with
    | none => exact iff_of_true rfl rfl
    | some x => exact iff_of_false (hspeaks request index action heffect x) (Option.some_ne_none x)
  unchanged request index hindex hpast := by
    obtain ⟨action, heffect⟩ := Effect.exists_at hindex
    rw [hanswers, heffect, Effect.on, Array.getElem?_eq_none (hsize ▸ hpast)]
  others request index hindex other hother := by
    obtain ⟨action, heffect⟩ := Effect.exists_at hindex
    rw [hanswers, heffect, Effect.on]
    cases xs[index]? with
    | none => rfl
    | some x => rw [get?_ofArray, get?_ofArray, Array.getElem?_setIfInBounds_ne hother.symm]

section Reached

variable {answer : Paged α → γ → Answer α × Paged α} {effect : γ → Effect α}

/-- Whatever has been asked of an array, it is cut from the flat array of which the same has been asked. -/
theorem answers_ofFn (hanswers : AnswersBy answer effect) (size : Nat) (start : Nat → α) (requests : List γ) :
    let flat := answers (flatly effect) requests ((Array.range size).map start)
    answers answer requests (ofFn size start) = (flat.1, ofArray flat.2) ∧ flat.2.size = size := by
  constructor
  · rw [ofFn_eq]
    exact answers_map (fun xs request => hanswers request xs) requests _
  · refine answers_induction (fun xs : Array α => xs.size = size) (fun request _ xs hxs => ?_) ?_
    · rw [size_flatly, hxs]
    · rw [Array.size_map, Array.size_range]

/-- The same for a shelf, which at first holds one array. -/
theorem answers_onShelf_ofFn (hanswers : AnswersBy answer effect) (size : Nat) (start : Nat → α)
    (requests : List (ShelfRequest γ)) :
    let flat := answers (onShelf (flatly effect)) requests [(Array.range size).map start]
    answers (onShelf answer) requests [ofFn size start] = (flat.1, flat.2.map ofArray) ∧
      ∀ xs ∈ flat.2, xs.size = size := by
  constructor
  · rw [ofFn_eq]
    exact answers_map (onShelf_map fun xs request => hanswers request xs) requests [(Array.range size).map start]
  · refine answers_induction (fun shelf : List (Array α) => ∀ xs ∈ shelf, xs.size = size)
      (fun request _ shelf hshelf => ?_) ?_
    · exact forall_onShelf (fun xs request hxs => by rw [size_flatly, hxs]) request hshelf
    · rw [List.forall_mem_singleton, Array.size_map, Array.size_range]

end Reached

/-- A clone stays as it was made, whatever is asked of other arrays later. -/
theorem getElem?_clone {σ : Type} (answer : σ → γ → Answer α × σ) {shelf : List σ} {place : Nat} {original : σ}
    (hplace : shelf[place]? = some original) {later : List (ShelfRequest γ)}
    (hlater : ∀ request, .ask shelf.length request ∉ later) :
    (answers (onShelf answer) (.clone place :: later) shelf).2[shelf.length]? = some original := by
  have hcloned : onShelf answer shelf (.clone place) = (.done, shelf ++ [original]) := by
    simp only [onShelf, hplace]
  simp only [answers, hcloned]
  refine (answers_induction (fun s => shelf.length < s.length ∧ s[shelf.length]? = some original)
    (fun request hrequest s hs => ?_) ⟨?_, ?_⟩).2
  · have hkept := getElem?_onShelf answer hs.1 fun r (heq : request = .ask shelf.length r) =>
      hlater r (heq ▸ hrequest)
    rw [hs.2] at hkept
    exact ⟨(List.getElem?_eq_some_iff.mp hkept).1, hkept⟩
  · rw [List.length_append, List.length_singleton]
    exact Nat.lt_succ_self _
  · exact List.getElem?_concat_length

/-! ## Frozen arrays -/

@[simp] theorem frozen_ofArray (words : Array UInt64) : (ofArray words).frozen = ofArray words := by
  rw [frozen, map_ofArray, Array.map_id']

theorem frozenNumbers_bits_ofArray (numbers : Array Binary64) :
    (ofArray numbers).bits.frozenNumbers = ofArray numbers := by
  rw [frozenNumbers, bits, map_ofArray, frozen_ofArray, map_ofArray, Array.map_map]
  exact congrArg ofArray (Array.map_id numbers)

/-- Arrays of some size are flat arrays, however they are made and whatever is asked of them. -/
structure AsFlat (size : Nat) : Prop where
  /-- A new array has one value everywhere, and an array is made of a function by giving every element of a
  new one its value. -/
  made : ∀ {α : Type} (value : α) (f : Nat → α),
    replicate size value = ofFn size (fun _ => value) ∧
      (List.range size).foldl (fun a index => a.put index (f index)) (replicate size value) = ofFn size f
  /-- A word is an index: a shift gives the page and a mask the place on it. -/
  located : ∀ {α : Type} (a : Paged α) (index : UInt64),
    a.get? index.toNat =
      (a.pages[(index >>> 14).toNat]?).bind fun page => page[(index &&& 16383).toNat]?
  /-- Plain arrays and clones of them answer as the flat ones, and act as those do when they have answered. -/
  plain : ∀ {α : Type} (start : Nat → α) (requests : List (ShelfRequest (Request α))),
    let paged := answers (onShelf Request.answer) requests [ofFn size start]
    let flat := answers (onShelf (flatly Request.effect)) requests [(Array.range size).map start]
    paged.1 = flat.1 ∧ List.Forall₂ (ActsFlat Request.answer Request.effect size) paged.2 flat.2
  /-- A clone stays as it was made, whatever is asked of other arrays later. -/
  cloned : ∀ {α : Type} (shelf : List (Paged α)) (place : Nat) (original : Paged α),
    shelf[place]? = some original → ∀ later : List (ShelfRequest (Request α)),
      (∀ request, .ask shelf.length request ∉ later) →
        (answers (onShelf Request.answer) (.clone place :: later) shelf).2[shelf.length]? = some original
  /-- Words that workers change answer as the flat ones, and are frozen into a plain array that acts as
  those do. -/
  words : ∀ (start : Nat → UInt64) (requests : List WordRequest),
    let paged := answers WordRequest.answer requests (ofFn size start)
    let flat := answers (flatly WordRequest.effect) requests ((Array.range size).map start)
    paged.1 = flat.1 ∧ ActsFlat WordRequest.answer WordRequest.effect size paged.2 flat.2 ∧
      ActsFlat Request.answer Request.effect size paged.2.frozen flat.2
  /-- So do numbers, which are frozen by way of their bits. -/
  numbers : ∀ (start : Nat → Binary64) (requests : List NumberRequest),
    let paged := answers NumberRequest.answer requests (ofFn size start)
    let flat := answers (flatly NumberRequest.effect) requests ((Array.range size).map start)
    paged.1 = flat.1 ∧ ActsFlat NumberRequest.answer NumberRequest.effect size paged.2 flat.2 ∧
      ActsFlat Request.answer Request.effect size paged.2.bits.frozenNumbers flat.2

/-- **A paged array is a flat one.**  For every size and every sequence of requests, an array in pages gives
the answers of the flat array of that size, and lists the same elements in the end: an index is refused just
in case it is past the end, and then nothing changes; what is asked of one index changes no other; clones
keep what they have; and freezing keeps every element. -/
theorem paged_array_as_flat (size : Nat) : AsFlat size where
  made value f := by
    refine ⟨?_, foldl_put size value f⟩
    have hnone := foldl_put_range size 0 value f
    rw [List.range_zero, List.foldl_nil] at hnone
    rw [hnone]
    exact ofFn_congr fun index _ => if_neg (Nat.not_lt_zero index)
  located := get?_word
  plain start requests := by
    obtain ⟨hpaged, hsize⟩ := answers_onShelf_ofFn answersBy_request size start requests
    intro paged flat
    rw [show paged = (flat.1, flat.2.map ofArray) from hpaged]
    refine ⟨rfl, ?_⟩
    rw [List.forall₂_map_left_iff, List.forall₂_same]
    exact fun xs hxs => actsFlat_ofArray answersBy_request Request.speaks_effect (hsize xs hxs)
  cloned _ _ _ hplace _ hlater := getElem?_clone Request.answer hplace hlater
  words start requests := by
    obtain ⟨hpaged, hsize⟩ := answers_ofFn answersBy_wordRequest size start requests
    intro paged flat
    rw [show paged = (flat.1, ofArray flat.2) from hpaged, frozen_ofArray]
    exact ⟨rfl, actsFlat_ofArray answersBy_wordRequest WordRequest.speaks_effect hsize,
      actsFlat_ofArray answersBy_request Request.speaks_effect hsize⟩
  numbers start requests := by
    obtain ⟨hpaged, hsize⟩ := answers_ofFn answersBy_numberRequest size start requests
    intro paged flat
    rw [show paged = (flat.1, ofArray flat.2) from hpaged, frozenNumbers_bits_ofArray]
    exact ⟨rfl, actsFlat_ofArray answersBy_numberRequest NumberRequest.speaks_effect hsize,
      actsFlat_ofArray answersBy_request Request.speaks_effect hsize⟩

example : (answers (onShelf Request.answer)
    [.ask 0 (.set 2 7), .clone 0, .ask 0 (.fill 1), .ask 0 (.get 2), .ask 1 (.get 2), .ask 1 (.get 3)]
    [ofFn 3 id]).1 = [.done, .done, .done, .element 1, .element 7, .refused] := by cbv

end PackedGraph.Paged
