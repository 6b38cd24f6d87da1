import Mathlib.Data.Finset.Card
import PackedGraph.Proofs.Graph.Numbering
import PackedGraph.Proofs.Storage.Flat

/-!
# Dense ids and external ids correspond

The dense ids below the node count and the external ids that were given stand in a one-to-one correspondence
that keeps their order, whichever way the map is made: of ids that are sorted together, of ids that are
collected one by one, or of a node count.

Main statements: `IdMap.numbers_ofAscending` and `dense_ids_correspond`.
-/

namespace PackedGraph

namespace IdMap

/-- The dense ids number the given ids in ascending order. -/
structure Numbers (m : IdMap) (given : List UInt64) : Prop where
  /-- There are as many nodes as different ids. -/
  nodeCount_eq : m.nodeCount = given.toFinset.card
  /-- A dense id has an external id just in case it is below the node count. -/
  isSome_iff : ∀ dense, (m.toExternal? dense).isSome ↔ dense < m.nodeCount
  /-- Larger dense ids have larger external ids. -/
  ascending : ∀ low high lower higher, m.toExternal? low = some lower → m.toExternal? high = some higher →
    low < high → lower < higher
  /-- The external ids are exactly those that were given. -/
  range : ∀ id, (∃ dense < m.nodeCount, m.toExternal? dense = some id) ↔ id ∈ given
  /-- Each numbering takes back the other. -/
  toDense?_eq_some_iff : ∀ id dense, m.toDense? id = some dense ↔ m.toExternal? dense = some id
  /-- An id is contained just in case it was given. -/
  contains_iff : ∀ id, m.contains id = true ↔ id ∈ given

variable {m : IdMap} {ascending given : List UInt64}

/-- A map numbers ids if its external ids are these ids in ascending order, and what it finds is a place
among them. -/
theorem numbers_of_ascending (hascending : ascending.Pairwise (· < ·))
    (hgiven : ∀ id, id ∈ ascending ↔ id ∈ given) (hcount : m.nodeCount = ascending.length)
    (hexternal : ∀ dense, m.toExternal? dense = ascending[dense]?)
    (hdense : ∀ id dense, m.toDense? id = some dense ↔ ascending[dense]? = some id) : m.Numbers given where
  nodeCount_eq := by
    have hfinset : given.toFinset = ascending.toFinset := by
      ext id
      rw [List.mem_toFinset, List.mem_toFinset, hgiven]
    rw [hcount, hfinset, List.toFinset_card_of_nodup (hascending.imp fun h => UInt64.ne_of_lt h)]
  isSome_iff dense := by rw [hexternal, hcount, isSome_getElem?]
  ascending low high lower higher hlow hhigh hlt := by
    rw [hexternal] at hlow hhigh
    obtain ⟨hlowLt, rfl⟩ := List.getElem?_eq_some_iff.mp hlow
    obtain ⟨hhighLt, rfl⟩ := List.getElem?_eq_some_iff.mp hhigh
    exact List.pairwise_iff_getElem.mp hascending low high hlowLt hhighLt hlt
  range id := by
    rw [← hgiven, List.mem_iff_getElem?]
    constructor
    · rintro ⟨dense, -, hfound⟩
      exact ⟨dense, hexternal dense ▸ hfound⟩
    · rintro ⟨dense, hfound⟩
      exact ⟨dense, hcount ▸ (List.getElem?_eq_some_iff.mp hfound).1, (hexternal dense).trans hfound⟩
  toDense?_eq_some_iff id dense := by rw [hdense, hexternal]
  contains_iff id := by
    rw [contains, Option.isSome_iff_exists, ← hgiven, List.mem_iff_getElem?]
    exact exists_congr fun dense => hdense id dense

theorem toExternal?_ofAscending (ids : List UInt64) (dense : Nat) :
    (ofAscending ids).toExternal? dense = ids[dense]? := by
  rw [toExternal?, ofAscending, Paged.ofList, Paged.get?_ofArray, List.getElem?_toArray]

/-- Ids that are given in any order are numbered. -/
theorem numbers_ofIds (ids : List UInt64) : (ofIds ids).Numbers ids := by
  rw [ofIds_eq]
  exact numbers_of_ascending (pairwise_ascendingOf ids) (fun _ => mem_ascendingOf) (nodeCount_ofAscending _)
    (toExternal?_ofAscending _) (toDense?_ofAscending (nodup_ascendingOf ids))

/-- A numbering depends on which ids there are, and on nothing else. -/
theorem ofIds_congr {ids others : List UInt64} (h : ∀ id, id ∈ ids ↔ id ∈ others) :
    ofIds ids = ofIds others := by
  rw [ofIds_eq, ofIds_eq]
  refine congrArg ofAscending (eq_ascendingOf (pairwise_ascendingOf ids) fun id => ?_)
  rw [mem_ascendingOf, h]

/-! ## Identities -/

/-- The ids below a node count. -/
def idsBelow (nodeCount : Nat) : List UInt64 := (List.range nodeCount).map UInt64.ofNat

theorem getElem?_idsBelow {nodeCount : UInt64} {dense : Nat} {id : UInt64} :
    (idsBelow nodeCount.toNat)[dense]? = some id ↔ id < nodeCount ∧ id.toNat = dense := by
  have hbound := nodeCount.toNat_lt
  rw [List.getElem?_eq_some_iff, UInt64.lt_iff_toNat_lt]
  simp only [idsBelow, List.length_map, List.length_range, List.getElem_map, List.getElem_range,
    exists_prop, ← UInt64.toNat_inj, UInt64.toNat_ofNat']
  constructor
  · rintro ⟨hlt, hid⟩
    rw [Nat.mod_eq_of_lt (by omega)] at hid
    exact ⟨hid ▸ hlt, hid.symm⟩
  · rintro ⟨hlt, rfl⟩
    exact ⟨hlt, Nat.mod_eq_of_lt (by omega)⟩

theorem pairwise_idsBelow (nodeCount : UInt64) : (idsBelow nodeCount.toNat).Pairwise (· < ·) := by
  rw [List.pairwise_iff_getElem]
  intro low high hlow hhigh hlt
  have hlower := (getElem?_idsBelow.mp (List.getElem?_eq_getElem hlow)).2
  have hhigher := (getElem?_idsBelow.mp (List.getElem?_eq_getElem hhigh)).2
  rw [UInt64.lt_iff_toNat_lt, hlower, hhigher]
  exact hlt

/-- Where both numberings are the same, the ids below the node count are numbered. -/
theorem numbers_identity (nodeCount : UInt64) :
    (identity nodeCount.toNat).Numbers (idsBelow nodeCount.toNat) := by
  refine numbers_of_ascending (pairwise_idsBelow nodeCount) (fun _ => Iff.rfl) ?count ?external ?dense
  case count => rw [idsBelow, List.length_map, List.length_range]; rfl
  case external =>
    intro dense
    rw [toExternal?, identity, Paged.ofFn_eq, Paged.get?_ofArray, idsBelow, ← Array.getElem?_toList,
      Array.toList_map, Array.toList_range]
  case dense =>
    intro id dense
    rw [getElem?_idsBelow, show (identity nodeCount.toNat).toDense? id =
      if id.toNat < nodeCount.toNat then some id.toNat else none from rfl, Option.ite_none_right_eq_some,
      Option.some_inj, UInt64.lt_iff_toNat_lt]

end IdMap

/-- **Dense ids and external ids correspond.**  Whatever ids are given, in any order and however often each,
sorting them together and collecting them one by one in any other order makes the same map; it numbers the
given ids, and keeps their order.  The identity on a node count numbers the ids below it. -/
theorem dense_ids_correspond {ids order : List UInt64} (h : ∀ id, id ∈ order ↔ id ∈ ids) :
    (order.foldl IdCollector.add {}).build = IdMap.ofIds ids ∧ (IdMap.ofIds ids).Numbers ids ∧
      ∀ nodeCount : UInt64, (IdMap.identity nodeCount.toNat).Numbers (IdMap.idsBelow nodeCount.toNat) := by
  refine ⟨?_, IdMap.numbers_ofIds ids, IdMap.numbers_identity⟩
  rw [IdCollector.build_eq_ofIds, IdMap.ofIds_congr h]

/-- The same three ids, the largest word among them, in two orders with different repetitions. -/
theorem correspondence_of_three_ids :
    (∀ id : UInt64, id ∈ [42, 18446744073709551615, 17, 42] ↔ id ∈ [18446744073709551615, 17, 42, 17]) ∧
      ([42, 18446744073709551615, 17, 42].foldl IdCollector.add {}).build =
        IdMap.ofIds [18446744073709551615, 17, 42, 17] ∧
      (IdMap.ofIds [18446744073709551615, 17, 42, 17]).nodeCount = 3 ∧
      (IdMap.ofIds [18446744073709551615, 17, 42, 17]).contains 18446744073709551615 = true := by
  have hsame : ∀ id : UInt64,
      id ∈ [42, 18446744073709551615, 17, 42] ↔ id ∈ [18446744073709551615, 17, 42, 17] := by
    intro id
    simp only [List.mem_cons, List.not_mem_nil, or_false]
    tauto
  obtain ⟨hbuild, hnumbers, -⟩ := dense_ids_correspond hsame
  refine ⟨hsame, hbuild, ?_, ?_⟩
  · rw [hnumbers.nodeCount_eq]
    decide
  · rw [hnumbers.contains_iff]
    decide

end PackedGraph
