import Mathlib.Data.List.Perm.Subperm
import PackedGraph.Proofs.Graph.Built
import PackedGraph.Proofs.Graph.Numbering

/-!
# The same graph under other names

External ids are names: a function that keeps their order gives every node a new name and leaves it its
dense id.  What is reached through dense ids alone is then the same, and what names a node names it anew.

`Alike` relates two attempts that both succeed, with related results, or both fail, with related
failures; `Fault.Renames` relates two faults that differ in the names of nodes only, and `Graph.Renamed`
two graphs that do.

Main statements: `IdMap.renamed_ofIds` and `IdMap.toDense?_map`.
-/

namespace PackedGraph

variable {f : UInt64 → UInt64}

/-- A number under new names: a word becomes its new name, any other number stays. -/
def renameWord (f : UInt64 → UInt64) (number : Nat) : Nat :=
  if number < UInt64.size then (f (UInt64.ofNat number)).toNat else number

@[simp] theorem renameWord_toNat (f : UInt64 → UInt64) (id : UInt64) :
    renameWord f id.toNat = (f id).toNat := by
  rw [renameWord, if_pos id.toNat_lt_size, UInt64.ofNat_toNat]

/-- Names that stay leave every number as it is. -/
theorem renameWord_of_eq (h : ∀ id, f id = id) (number : Nat) : renameWord f number = number := by
  unfold renameWord
  split
  · next hlt => rw [h, UInt64.toNat_ofNat_of_lt' hlt]
  · rfl

/-- New names that have the order of the old ones. -/
def KeepsOrder (f : UInt64 → UInt64) (ids : List UInt64) : Prop :=
  ∀ a ∈ ids, ∀ b ∈ ids, a < b → f a < f b

-- the ids are compared with each other, not all words
instance (f : UInt64 → UInt64) (ids : List UInt64) : Decidable (KeepsOrder f ids) :=
  haveI (a : UInt64) : Decidable (∀ b ∈ ids, a < b → f a < f b) := List.decidableBAll _ ids
  List.decidableBAll _ ids

/-- Different ids have different new names. -/
theorem KeepsOrder.injective {ids : List UInt64} (h : KeepsOrder f ids) {a b : UInt64} (ha : a ∈ ids)
    (hb : b ∈ ids) (heq : f a = f b) : a = b := by
  by_contra hne
  rcases UInt64.lt_or_lt_of_ne hne with hlt | hgt
  · exact UInt64.ne_of_lt (h a ha b hb hlt) heq
  · exact UInt64.ne_of_lt (h b hb a ha hgt) heq.symm

/-! ## Attempts that end alike -/

/-- Two attempts that both succeed, with results that are related, or both fail, with failures that
are. -/
inductive Alike {ε α β : Type} (S : ε → ε → Prop) (R : α → β → Prop) :
    Except ε α → Except ε β → Prop
  | ok {a : α} {b : β} (h : R a b) : Alike S R (.ok a) (.ok b)
  | error {cause other : ε} (h : S cause other) : Alike S R (.error cause) (.error other)

namespace Alike

variable {ε α β γ δ : Type} {S : ε → ε → Prop} {R : α → β → Prop} {Q : γ → δ → Prop}
  {x : Except ε α} {y : Except ε β}

theorem bind (h : Alike S R x y) {next : α → Except ε γ} {after : β → Except ε δ}
    (hnext : ∀ a b, R a b → Alike S Q (next a) (after b)) : Alike S Q (x >>= next) (y >>= after) := by
  cases h with
  | ok h => exact hnext _ _ h
  | error h => exact .error h

theorem map (h : Alike S R x y) {change : α → γ} {alter : β → δ}
    (hchange : ∀ a b, R a b → Q (change a) (alter b)) : Alike S Q (x.map change) (y.map alter) := by
  cases h with
  | ok h => exact .ok (hchange _ _ h)
  | error h => exact .error h

/-- What succeeds once succeeds again. -/
theorem exists_of_ok {a : α} (h : Alike S R (.ok a) y) : ∃ b, y = .ok b ∧ R a b := by
  cases h with
  | ok h => exact ⟨_, rfl, h⟩

/-- What the results have in common may be more than the steps to them show. -/
theorem strengthen (h : Alike S R x y) {T : α → β → Prop}
    (hmore : ∀ a b, x = .ok a → y = .ok b → R a b → T a b) : Alike S T x y := by
  cases h with
  | ok h => exact .ok (hmore _ _ rfl rfl h)
  | error h => exact .error h

theorem refl (h : ∀ cause, S cause cause) (x : Except ε α) : Alike S Eq x x := by
  cases x with
  | ok a => exact .ok rfl
  | error cause => exact .error (h cause)

/-- Lists are worked through alike if their entries are. -/
theorem mapM {work other : α → Except ε γ} {xs : List α}
    (h : ∀ x ∈ xs, Alike S Eq (work x) (other x)) : Alike S Eq (xs.mapM work) (xs.mapM other) := by
  induction xs with
  | nil => exact .ok rfl
  | cons first xs ih =>
    rw [List.mapM_cons, List.mapM_cons]
    refine (h first List.mem_cons_self).bind fun result _ hresult => ?_
    subst hresult
    refine (ih fun x hx => h x (List.mem_cons_of_mem _ hx)).bind fun results _ hresults => ?_
    exact .ok (by rw [hresults])

end Alike

/-! ## Faults and failures -/

namespace Fault

/-- A node has a relationship whose weight cannot measure a path. -/
def unusableWeight (id : UInt64) : Fault :=
  .unsupportedGraph ("weighted betweenness requires positive finite weights, node "
    ++ toString id.toNat ++ " has another")

/-- Whether a fault names a node. -/
def NamesNode : Fault → Prop
  | duplicateRelationship .. | unknownNode _ => True
  | unsupportedGraph reason => ∃ id, unsupportedGraph reason = unusableWeight id
  | _ => False

/-- The second fault says of the new names what the first says of the old ones. -/
inductive Renames (f : UInt64 → UInt64) : Fault → Fault → Prop
  | duplicateRelationship (source target : UInt64) :
    Renames f (.duplicateRelationship source target) (.duplicateRelationship (f source) (f target))
  | unknownNode (id : Nat) : Renames f (.unknownNode id) (.unknownNode (renameWord f id))
  | unusableWeight (id : UInt64) : Renames f (.unusableWeight id) (.unusableWeight (f id))
  | nameless {cause : Fault} (h : ¬ cause.NamesNode) : Renames f cause cause

/-- Where all names stay, so does a fault. -/
theorem renames_self (h : ∀ id, f id = id) (cause : Fault) : cause.Renames f cause := by
  by_cases hnames : cause.NamesNode
  · cases cause with
    | duplicateRelationship source target =>
      simpa only [h] using Renames.duplicateRelationship (f := f) source target
    | unknownNode id => simpa only [renameWord_of_eq h] using Renames.unknownNode (f := f) id
    | unsupportedGraph reason =>
      obtain ⟨id, hid⟩ := hnames
      simpa only [h, ← hid] using Renames.unusableWeight (f := f) id
    | configuration | overBudget | workerFailed | io | outOfRange | noRoom => exact absurd hnames id
  · exact .nameless hnames

/-- A reason that begins otherwise is not about the weights of a node. -/
theorem not_namesNode_of_reason {reason : String}
    (h : ¬ "weighted betweenness requires positive".toList <+: reason.toList) :
    ¬ (unsupportedGraph reason).NamesNode := by
  rintro ⟨id, hid⟩
  rw [unusableWeight, unsupportedGraph.injEq] at hid
  apply h
  rw [hid, String.toList_append, String.toList_append, List.append_assoc]
  exact List.IsPrefix.trans (by simp) (List.prefix_append _ _)

end Fault

/-- An attempt that names no node if it fails. -/
def Nameless {α : Type} (x : Except Fault α) : Prop := ∀ cause, x = .error cause → ¬ cause.NamesNode

namespace Nameless

variable {α β : Type} {x : Except Fault α}

theorem of_ok (a : α) : Nameless (.ok a) := by simp [Nameless]

theorem of_error {cause : Fault} (h : ¬ cause.NamesNode) : Nameless (.error cause : Except Fault α) := by
  rintro other heq
  exact Except.error.inj heq ▸ h

theorem bind (h : Nameless x) {next : α → Except Fault β} (hnext : ∀ a, Nameless (next a)) :
    Nameless (x >>= next) := by
  cases x with
  | ok a => exact hnext a
  | error cause => exact of_error (h cause rfl)

/-- The same attempt ends alike, whatever the names. -/
theorem alike (h : Nameless x) : Alike (Fault.Renames f) Eq x x := by
  cases x with
  | ok a => exact .ok rfl
  | error cause => exact .error (.nameless (h cause rfl))

end Nameless

/-- The second failure says of the new names what the first says of the old ones. -/
inductive Failure.Renames (f : UInt64 → UInt64) : Failure → Failure → Prop
  | fault {cause other : Fault} (h : cause.Renames f other) : Renames f (.fault cause) (.fault other)
  | within (context : String) {inner other : Failure} (h : inner.Renames f other) :
    Renames f (.within context inner) (.within context other)

theorem Alike.orFail {α β : Type} {R : α → β → Prop} {x : Except Fault α} {y : Except Fault β}
    (h : Alike (Fault.Renames f) R x y) : Alike (Failure.Renames f) R (orFail x) (orFail y) := by
  cases h with
  | ok h => exact .ok h
  | error h => exact .error (.fault h)

theorem Alike.inContext {α β : Type} {R : α → β → Prop} {x : Except Failure α}
    {y : Except Failure β} (context : String) (h : Alike (Failure.Renames f) R x y) :
    Alike (Failure.Renames f) R (inContext context x) (inContext context y) := by
  cases h with
  | ok h => exact .ok h
  | error h => exact .error (.within context h)

/-! ## Numberings -/

namespace IdMap

/-- The same numbering of nodes that have new names. -/
structure Renamed (f : UInt64 → UInt64) (m renamed : IdMap) : Prop where
  /-- There are as many nodes. -/
  nodeCount_eq : renamed.nodeCount = m.nodeCount
  /-- They take as many bytes. -/
  bytes_eq : renamed.bytes = m.bytes
  /-- Each has its new name. -/
  toExternal_eq : ∀ node < m.nodeCount, renamed.toExternal node = f (m.toExternal node)

theorem renamed_self (h : ∀ id, f id = id) (m : IdMap) : m.Renamed f m :=
  ⟨rfl, rfl, fun _ _ => (h _).symm⟩

variable {ids : List UInt64}

/-- In ascending order the ids have their new names in ascending order. -/
theorem ascendingOf_map (h : KeepsOrder f ids) : ascendingOf (ids.map f) = (ascendingOf ids).map f := by
  refine (eq_ascendingOf ?_ fun id => ?_).symm
  · rw [List.pairwise_map]
    exact (pairwise_ascendingOf ids).imp_of_mem fun ha hb =>
      h _ (mem_ascendingOf.mp ha) _ (mem_ascendingOf.mp hb)
  · simp only [List.mem_map, mem_ascendingOf]

theorem renamed_ofIds (h : KeepsOrder f ids) : (ofIds ids).Renamed f (ofIds (ids.map f)) := by
  have hcount : (ofIds (ids.map f)).nodeCount = (ofIds ids).nodeCount := by
    simp only [ofIds_eq, nodeCount_ofAscending, ascendingOf_map h, List.length_map]
  refine ⟨hcount, ?_, fun node hnode => ?_⟩
  · simp only [bytes, hcount]
    rfl
  · rw [ofIds_eq, nodeCount_ofAscending] at hnode
    simp [ofIds_eq, ascendingOf_map h, hnode]

/-- A node is found under its new name. -/
theorem toDense?_map (h : KeepsOrder f ids) {id : UInt64} (hid : id ∈ ids) :
    (ofIds (ids.map f)).toDense? (f id) = (ofIds ids).toDense? id := by
  refine Option.ext fun dense => ?_
  rw [ofIds_eq, ofIds_eq, toDense?_ofAscending (nodup_ascendingOf _),
    toDense?_ofAscending (nodup_ascendingOf _), ascendingOf_map h, List.getElem?_map,
    Option.map_eq_some_iff]
  constructor
  · rintro ⟨other, hother, heq⟩
    rw [hother, h.injective (mem_ascendingOf.mp (List.mem_of_getElem? hother)) hid heq]
  · exact fun hfound => ⟨id, hfound, rfl⟩

/-! ### All words -/

/-- A strict order of as many words as there are has all of them. -/
theorem map_toNat_of_all_words {xs : List UInt64} (h : xs.Pairwise (· < ·))
    (hlength : UInt64.size ≤ xs.length) : xs.map UInt64.toNat = List.range UInt64.size := by
  have hascending : (xs.map UInt64.toNat).Pairwise (· < ·) :=
    List.pairwise_map.mpr (h.imp fun hlt => UInt64.lt_iff_toNat_lt.mp hlt)
  have hsub : xs.map UInt64.toNat ⊆ List.range UInt64.size := by
    intro number hnumber
    obtain ⟨id, -, rfl⟩ := List.mem_map.mp hnumber
    exact List.mem_range.mpr id.toNat_lt_size
  have hnodup : (xs.map UInt64.toNat).Nodup := hascending.imp Nat.ne_of_lt
  have hperm := (hnodup.subperm hsub).perm_of_length_le (by rwa [List.length_range, List.length_map])
  exact hperm.eq_of_pairwise (fun a b _ _ hab hba => absurd (Nat.lt_trans hab hba) (Nat.lt_irrefl _))
    hascending List.pairwise_lt_range

/-- Where every word is a name, names that keep their order can only stay. -/
theorem eq_self_of_all_words (h : KeepsOrder f ids) (hall : largestWord < (ofIds ids).nodeCount)
    (id : UInt64) : f id = id := by
  rw [ofIds_eq, nodeCount_ofAscending] at hall
  have hold := map_toNat_of_all_words (pairwise_ascendingOf ids) hall
  have hnew := map_toNat_of_all_words (pairwise_ascendingOf (ids.map f))
    (by rw [ascendingOf_map h, List.length_map]; exact hall)
  obtain ⟨same, hmem, heq⟩ := List.mem_map.mp (hold ▸ List.mem_range.mpr id.toNat_lt_size)
  obtain rfl := UInt64.toNat_inj.mp heq
  rw [ascendingOf_map h, ← hold, List.map_map] at hnew
  exact UInt64.toNat_inj.mp (List.map_inj_left.mp hnew same hmem)

end IdMap

/-! ## Graphs -/

namespace Graph

/-- The same graph over other nodes. -/
def withNodes (g : Graph) (nodes : IdMap) : Graph := { g with nodes := nodes }

/-- The same graph with new names for its nodes. -/
def Renamed (f : UInt64 → UInt64) (g renamed : Graph) : Prop :=
  ∃ nodes, g.nodes.Renamed f nodes ∧ renamed = g.withNodes nodes

variable {g : Graph} {nodes : IdMap}

@[simp] theorem weighted_withNodes (g : Graph) (nodes : IdMap) :
    (g.withNodes nodes).weighted = g.weighted := rfl

@[simp] theorem isWeighted_withNodes (g : Graph) (nodes : IdMap) :
    (g.withNodes nodes).isWeighted = g.isWeighted := rfl

@[simp] theorem isUndirected_withNodes (g : Graph) (nodes : IdMap) :
    (g.withNodes nodes).isUndirected = g.isUndirected := rfl

@[simp] theorem parallel_withNodes (g : Graph) (nodes : IdMap) :
    (g.withNodes nodes).parallel = g.parallel := rfl

theorem nodeCount_withNodes (h : g.nodes.Renamed f nodes) : (g.withNodes nodes).nodeCount = g.nodeCount :=
  h.nodeCount_eq

theorem nodeList_withNodes (h : g.nodes.Renamed f nodes) : (g.withNodes nodes).nodeList = g.nodeList := by
  rw [nodeList, nodeCount_withNodes h, nodeList]

theorem external_withNodes (h : g.nodes.Renamed f nodes) {node : Nat} (hnode : node < g.nodeCount) :
    (g.withNodes nodes).external node = f (g.external node) :=
  h.toExternal_eq node hnode

theorem bytes_withNodes (h : g.nodes.Renamed f nodes) : (g.withNodes nodes).bytes = g.bytes := by
  have hnodes : (g.withNodes nodes).nodes.bytes = g.nodes.bytes := h.bytes_eq
  rw [bytes, bytes, hnodes]
  rfl

/-- What could be built can be built over other nodes. -/
theorem Built.withNodes (hg : g.Built) (h : g.nodes.Renamed f nodes) : (g.withNodes nodes).Built := by
  obtain ⟨before, types, properties, htypes, hassemble⟩ := hg
  obtain ⟨⟨⟩, hproperties, hassemble⟩ := ok_of_bind hassemble
  obtain ⟨⟨⟩, hcheck, hassemble⟩ := ok_of_bind hassemble
  obtain rfl := Except.ok.inj hassemble
  have hcount : nodes.nodeCount = before.nodeCount := h.nodeCount_eq
  refine ⟨nodes, types, properties, htypes, ?_⟩
  rw [assemble?, hcount, hproperties, hcheck]
  rfl

end Graph

end PackedGraph
