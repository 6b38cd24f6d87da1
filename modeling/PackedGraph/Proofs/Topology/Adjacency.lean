import Mathlib.Algebra.GroupWithZero.Nat
import Mathlib.Data.List.Induction
import PackedGraph.Proofs.Storage.Paged
import PackedGraph.Proofs.Topology.Compressor
import PackedGraph.Topology.Adjacency

/-!
# What a compressed adjacency holds

Pages, degrees and addresses *pack* a list of rows when every row is found at its address with its
degree.  Rows can be packed one by one, and packed rows can be put behind each other; an adjacency of
such parts *holds* the rows.

Main statements: `Packs.push`, `Packs.append` and `Packs.holds`; `Adjacency.holds_ofSortedLists` for
rows that are compressed on the spot.
-/

namespace PackedGraph

/-! ## Packed rows -/

/-- Every row stands at its address, and its degree is its length. -/
structure Packs (pages : Array Page) (degrees addresses : Array Nat) (rows : List (List UInt64)) :
    Prop where
  /-- The degrees are the lengths of the rows. -/
  degrees_eq : degrees.toList = rows.map List.length
  /-- There is one address for each row. -/
  addresses_length : addresses.toList.length = rows.length
  /-- A row that is not empty stands at its address. -/
  located : ∀ (node : Nat) (row : List UInt64), rows[node]? = some row → row ≠ [] →
    Located pages (addresses.toList[node]?.getD 0) (Varint.wordBytes (Varint.gapList 0 row))
  /-- Every row ascends. -/
  ascending : ∀ row ∈ rows, Varint.AscendsFrom 0 row

namespace Packs

variable {pages : Array Page} {degrees addresses : Array Nat} {rows : List (List UInt64)}

theorem empty (pages : Array Page) : Packs pages #[] #[] [] :=
  ⟨rfl, rfl, fun _ _ h => absurd h (by simp), fun _ h => absurd h List.not_mem_nil⟩

/-- Rows stay packed when nothing moves. -/
theorem mono {other : Array Page} (h : Packs pages degrees addresses rows)
    (hkeeps : Keeps pages other) :
    Packs other degrees addresses rows :=
  { h with
    located := fun node row hrow hne => hkeeps _ _
      (Varint.wordBytes_gapList_ne_nil (h.ascending row (List.mem_of_getElem? hrow)) hne)
      (h.located node row hrow hne) }

/-- A row more. -/
theorem push {c : Compressor} (hc : c.Sound) (h : Packs c.stored degrees addresses rows)
    {row : List UInt64} (hrow : Varint.AscendsFrom 0 row) :
    Packs (c.compress row).2.stored (degrees.push (c.compress row).1.degree)
      (addresses.push (c.compress row).1.address) (rows ++ [row]) := by
  have hkept := h.mono (c.keeps_compress row)
  have hdegree : (c.compress row).1.degree = row.length := by
    rw [Compressor.degree_compress, hrow.keptCount_eq]
  refine ⟨?_, ?_, ?_, ?_⟩
  · rw [Array.toList_push, h.degrees_eq, hdegree, List.map_append, List.map_singleton]
  · rw [Array.toList_push, List.length_append, List.length_append, h.addresses_length]
    rfl
  · intro node found hfound hne
    rw [Array.toList_push]
    rcases Nat.lt_trichotomy node rows.length with hlt | heq | hgt
    · rw [List.getElem?_append_left hlt] at hfound
      rw [List.getElem?_append_left (by rw [h.addresses_length]; exact hlt)]
      exact hkept.located node found hfound hne
    · have hnode : node = addresses.toList.length := heq.trans h.addresses_length.symm
      rw [heq, List.getElem?_concat_length, Option.some.injEq] at hfound
      subst hfound
      rw [hnode, List.getElem?_concat_length, Option.getD_some, ← Varint.gaps_eq]
      refine Compressor.located_compress hc ?_ ?_
      · rw [hrow.keptCount_eq]
        exact fun hlen => hne (List.eq_nil_of_length_eq_zero hlen)
      · rw [Varint.gaps_eq]
        exact Varint.wordBytes_gapList_ne_nil hrow hne
    · rw [List.getElem?_eq_none (by rw [List.length_append, List.length_singleton]; omega)] at hfound
      exact absurd hfound (by simp)
  · intro found hmem
    rcases List.mem_append.mp hmem with hmem | hmem
    · exact h.ascending found hmem
    · rw [List.mem_singleton.mp hmem]
      exact hrow

/-- Packed rows behind packed rows, the addresses moved by the pages in front. -/
theorem append {pages' : Array Page} {degrees' addresses' : Array Nat} {rows' : List (List UInt64)}
    (h : Packs pages degrees addresses rows) (h' : Packs pages' degrees' addresses' rows') :
    Packs (pages ++ pages') (degrees ++ degrees')
      (addresses ++ addresses'.map (Address.rebase · pages.size)) (rows ++ rows') := by
  refine ⟨?_, ?_, ?_, ?_⟩
  · rw [Array.toList_append, h.degrees_eq, h'.degrees_eq, List.map_append]
  · simp only [Array.toList_append, Array.toList_map, List.length_append, List.length_map,
      h.addresses_length, h'.addresses_length]
  · intro node row hrow hne
    rw [Array.toList_append, Array.toList_map]
    by_cases hlt : node < rows.length
    · rw [List.getElem?_append_left hlt] at hrow
      rw [List.getElem?_append_left (by rw [h.addresses_length]; exact hlt)]
      have hasc := h.ascending row (List.mem_of_getElem? hrow)
      exact keeps_append _ _ _ _ (Varint.wordBytes_gapList_ne_nil hasc hne) (h.located node row hrow hne)
    · have hge := not_lt.mp hlt
      rw [List.getElem?_append_right hge] at hrow
      have hnode : node - rows.length < addresses'.toList.length := by
        rw [h'.addresses_length]
        exact (List.getElem?_eq_some_iff.mp hrow).1
      have hlocated := h'.located _ row hrow hne
      rw [List.getElem?_eq_getElem hnode, Option.getD_some] at hlocated
      rw [List.getElem?_append_right (by rw [h.addresses_length]; exact hge), h.addresses_length,
        List.getElem?_map, List.getElem?_eq_getElem hnode, Option.map_some, Option.getD_some]
      exact located_rebase pages hlocated
  · intro row hmem
    rcases List.mem_append.mp hmem with hmem | hmem
    · exact h.ascending row hmem
    · exact h'.ascending row hmem

end Packs

/-! ## Adjacencies -/

namespace Adjacency

/-- An adjacency from which the given rows can be read, one for each node. -/
structure Holds (a : Adjacency) (rows : List (List UInt64)) : Prop where
  /-- There are as many nodes as rows. -/
  nodeCount_eq : a.nodeCount = rows.length
  /-- The degree of a node is the length of its row. -/
  degree_eq : ∀ node : Nat, a.degree node = (rows[node]?.getD []).length
  /-- The ids that name a node are the indices of the rows. -/
  covers_iff : ∀ node, a.covers node = true ↔ node < rows.length
  /-- A row that is not empty stands where the adjacency locates it. -/
  located : ∀ (node : Nat) (row : List UInt64), rows[node]? = some row → row ≠ [] →
    HoldsAt (a.locate node).1 (a.locate node).2 (Varint.wordBytes (Varint.gapList 0 row))
  /-- Every row ascends. -/
  ascending : ∀ row ∈ rows, Varint.AscendsFrom 0 row
  /-- The relationships are the entries of all rows. -/
  relationshipCount_eq : a.relationshipCount = (rows.map List.length).sum

end Adjacency

/-- An adjacency of packed rows holds them. -/
theorem Packs.holds {pages : Array Page} {degrees addresses : Array Nat} {rows : List (List UInt64)}
    (h : Packs pages degrees addresses rows) : (Adjacency.ofParts pages degrees addresses).Holds rows := by
  have hsize : degrees.size = rows.length := by
    rw [← Array.length_toList, h.degrees_eq, List.length_map]
  have hdegree : ∀ node : Nat, (Adjacency.ofParts pages degrees addresses).degree node =
      (rows[node]?.getD []).length := by
    intro node
    rw [Adjacency.degree, Adjacency.ofParts, Paged.getD_ofArray, ← Array.getElem?_toList,
      h.degrees_eq,
      List.getElem?_map]
    cases rows[node]? <;> rfl
  refine ⟨hsize, hdegree, ?_, ?_, h.ascending, ?_⟩
  · intro node
    rw [Adjacency.covers, Adjacency.ofParts, Paged.covers_ofArray, decide_eq_true_eq, hsize]
  · intro node row hrow hne
    obtain ⟨page, hpage, hholds⟩ := h.located node row hrow hne
    have hpos : (Adjacency.ofParts pages degrees addresses).degree node ≠ 0 := by
      rw [hdegree, hrow, Option.getD_some]
      exact fun hlen => hne (List.eq_nil_of_length_eq_zero hlen)
    have haddress : (Adjacency.ofParts pages degrees addresses).addresses.getD node 0 =
        addresses.toList[node]?.getD 0 := by
      rw [Adjacency.ofParts, Paged.getD_ofArray, Array.getElem?_toList]
    have hfound : pages.getD (Address.page (addresses.toList[node]?.getD 0)) #[] = page := by
      rw [Array.getD_eq_getD_getElem?, hpage, Option.getD_some]
    rw [Adjacency.locate, if_neg hpos, haddress]
    simp only [show (Adjacency.ofParts pages degrees addresses).pages = pages from rfl, hfound]
    exact hholds
  · rw [Adjacency.ofParts, ← Array.foldl_toList, h.degrees_eq, List.sum_eq_foldl]

namespace Adjacency

/-- Runs that are compressed one after the other pack their rows. -/
theorem packs_compressAll {pageBytes : Nat} (hpage : pageBytes ≤ Address.offsetBound)
    {rows : List (List UInt64)} (hrows : ∀ row ∈ rows, Varint.AscendsFrom 0 row) :
    Packs ((Compressor.new pageBytes).compressAll rows).2.stored
        (((Compressor.new pageBytes).compressAll rows).1.map Run.degree)
        (((Compressor.new pageBytes).compressAll rows).1.map Run.address) rows ∧
      ((Compressor.new pageBytes).compressAll rows).2.Sound := by
  induction rows using List.reverseRecOn with
  | nil =>
    rw [show (Compressor.new pageBytes).compressAll [] = (#[], Compressor.new pageBytes) from rfl]
    exact ⟨by simpa using Packs.empty _, Compressor.sound_new hpage⟩
  | append_singleton rows row ih =>
    obtain ⟨hpacks, hsound⟩ := ih fun r hr => hrows r (List.mem_append_left _ hr)
    have hrow := hrows row (List.mem_append_right _ (List.mem_singleton_self row))
    rw [Compressor.compressAll_concat, Array.map_push, Array.map_push]
    exact ⟨Packs.push hsound hpacks hrow, Compressor.sound_compress hsound row⟩

/-- Rows that are compressed on the spot are held. -/
theorem holds_ofSortedLists {rows : List (List UInt64)}
    (hrows : ∀ row ∈ rows, Varint.AscendsFrom 0 row) : (ofSortedLists rows).Holds rows := by
  obtain ⟨hpacks, -⟩ := packs_compressAll (show bytesPerPage ≤ Address.offsetBound by decide) hrows
  exact (hpacks.mono (Compressor.keeps_finish _)).holds

end Adjacency

end PackedGraph
