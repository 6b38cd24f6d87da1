import Mathlib.Algebra.Order.BigOperators.Group.List
import Mathlib.Algebra.Order.Group.Nat
import PackedGraph.Proofs.Topology.Adjacency
import PackedGraph.Proofs.Topology.Paging

/-!
# Estimates and the bytes of an adjacency

The bytes of an adjacency are its tables, the bytes of its runs and an entry for every page.  Its pages come
from one packer or from several, each of which begins on a page of its own.  The estimate counts one byte for
a target at least and ten at most, all on full pages: it knows neither how many packers there are nor that a
run may be longer than a page, so both bounds need a condition.

Main statements: `Adjacency.PackedBy.min_le`, `Adjacency.PackedBy.le_max_add` and
`Adjacency.PackedBy.le_max`.
-/

namespace PackedGraph

/-! ## One packer -/

namespace Compressor

/-- The pages of a packer that has written some runs. -/
def pagesOf (runs : List (List UInt64)) : List Page := ((new bytesPerPage).writeAll runs).finish.toList

/-- How many targets runs have. -/
def targetsOf (runs : List (List UInt64)) : Nat := (runs.map Varint.keptCount).sum

/-- How many of them may take ten bytes. -/
def wideOf (runs : List (List UInt64)) : Nat := (runs.map Varint.wideCount).sum

/-- Runs take a byte for every target at least, and nine at most but for the wide ones. -/
theorem pagedBytes_pagesOf_bounds {runs : List (List UInt64)} (h : ∀ run ∈ runs, Varint.Ascends run) :
    targetsOf runs ≤ pagedBytes (pagesOf runs) ∧
      pagedBytes (pagesOf runs) ≤ 9 * targetsOf runs + wideOf runs := by
  obtain ⟨-, -, hbytes, -⟩ := crowded_writeAll bytesPerPage h
  rw [pagesOf, hbytes, targetsOf, wideOf]
  clear hbytes
  induction runs with
  | nil => simp
  | cons run runs ih =>
    obtain ⟨hleast, hmost⟩ := Varint.runBytes_bounds (h run List.mem_cons_self)
    obtain ⟨hleasts, hmosts⟩ := ih fun r hr => h r (List.mem_cons_of_mem _ hr)
    simp only [List.map_cons, List.sum_cons]
    omega

/-- There are at most twice as many pages as the runs fill, and one more. -/
theorem length_pagesOf_le {runs : List (List UInt64)} (h : ∀ run ∈ runs, Varint.Ascends run) :
    (pagesOf runs).length * bytesPerPage ≤ 2 * pagedBytes (pagesOf runs) + bytesPerPage := by
  obtain ⟨hcrowded, hpage, -, -⟩ := crowded_writeAll bytesPerPage h
  have htight := hcrowded.tight
  rw [hpage] at htight
  exact htight.length_le

/-- Runs without targets have no pages. -/
theorem pagesOf_eq_nil {runs : List (List UInt64)} (h : ∀ run ∈ runs, Varint.Ascends run)
    (hnone : targetsOf runs = 0) : pagesOf runs = [] := by
  obtain ⟨-, -, -, hempty⟩ := crowded_writeAll bytesPerPage h
  rw [pagesOf, hempty, Array.toList_empty]
  intro run hrun
  have hle := List.single_le_sum (fun _ _ => Nat.zero_le _) _ (List.mem_map_of_mem (f := Varint.keptCount) hrun)
  rw [targetsOf] at hnone
  omega

/-- A single packer keeps to the estimate, if no target is wide. -/
theorem bytes_pagesOf_le {runs : List (List UInt64)} (h : ∀ run ∈ runs, Varint.Ascends run)
    (hwide : wideOf runs = 0) :
    pagedBytes (pagesOf runs) + (pagesOf runs).length * Paged.tableEntry ≤
      targetsOf runs * Varint.maxEncodedSize +
        ceilDiv (targetsOf runs * Varint.maxEncodedSize) bytesPerPage * Paged.tableEntry := by
  have hbytes := (pagedBytes_pagesOf_bounds h).2
  have hpages := length_pagesOf_le h
  by_cases hnone : targetsOf runs = 0
  · simp [pagesOf_eq_nil h hnone, pagedBytes]
  · unfold ceilDiv Varint.maxEncodedSize Paged.tableEntry bytesPerPage at *
    -- one page is allowed for in any case, and more pages take more targets than they have entries
    have hallowed : 1 ≤ (targetsOf runs * 10 + 262144 - 1) / 262144 := by omega
    by_cases hone : (pagesOf runs).length ≤ 1 <;> omega

end Compressor

/-! ## Several packers -/

namespace Adjacency

open Compressor

/-- An adjacency whose pages come from some packers, each of which has written some runs. -/
structure PackedBy (a : Adjacency) (packs : List (List (List UInt64))) : Prop where
  /-- The runs ascend. -/
  ascends : ∀ runs ∈ packs, ∀ run ∈ runs, Varint.Ascends run
  /-- The pages of each packer lie behind those of the packer before. -/
  pages_eq : a.pages.toList = packs.flatMap pagesOf
  /-- The targets are those of all runs. -/
  relationshipCount_eq : a.relationshipCount = (packs.map targetsOf).sum

/-- The packers that have written something. -/
def packersOf (packs : List (List (List UInt64))) : Nat :=
  packs.countP fun runs => decide (0 < targetsOf runs)

/-- The bytes of pages and tables. -/
theorem bytes_eq (a : Adjacency) : a.bytes = pagedBytes a.pages.toList +
    a.pages.size * Paged.tableEntry + (Paged.bytes 4 a.nodeCount + Paged.bytes 8 a.nodeCount) := by
  have hfold : ∀ (pages : List Page) (total : Nat),
      pages.foldl (fun total page => total + (page.size + Paged.tableEntry)) total =
        total + (pagedBytes pages + pages.length * Paged.tableEntry) := by
    intro pages
    induction pages with
    | nil => simp [pagedBytes]
    | cons page pages ih =>
      intro total
      rw [List.foldl_cons, ih, List.length_cons, Nat.succ_mul, pagedBytes, pagedBytes, List.map_cons,
        List.sum_cons]
      omega
  rw [bytes, ← Array.foldl_toList, hfold, Array.length_toList]
  omega

variable {a : Adjacency} {packs : List (List (List UInt64))}

/-- All packers together. -/
theorem PackedBy.bounds (h : a.PackedBy packs) :
    a.relationshipCount ≤ pagedBytes a.pages.toList ∧
      pagedBytes a.pages.toList ≤ 9 * a.relationshipCount + (packs.map wideOf).sum ∧
      a.pages.size * bytesPerPage ≤ 2 * pagedBytes a.pages.toList + packersOf packs * bytesPerPage := by
  obtain ⟨hascends, hpages, hcount⟩ := h
  rw [hcount, ← Array.length_toList, hpages, packersOf]
  clear hpages hcount
  induction packs with
  | nil => simp [pagedBytes]
  | cons runs packs ih =>
    obtain ⟨hleasts, hmosts, hlengths⟩ := ih fun r hr => hascends r (List.mem_cons_of_mem _ hr)
    have hruns := hascends runs List.mem_cons_self
    obtain ⟨hleast, hmost⟩ := pagedBytes_pagesOf_bounds hruns
    rw [List.flatMap_cons, pagedBytes_append, List.length_append, List.countP_cons, Nat.add_mul, Nat.add_mul]
    simp only [List.map_cons, List.sum_cons]
    refine ⟨by omega, by omega, ?_⟩
    by_cases hnone : targetsOf runs = 0
    · rw [pagesOf_eq_nil hruns hnone, if_neg (by simpa using hnone)]
      simp only [List.length_nil, Nat.zero_mul, pagedBytes, List.map_nil, List.sum_nil] at *
      omega
    · have hlength := length_pagesOf_le hruns
      rw [if_pos (by simpa [Nat.pos_iff_ne_zero] using hnone)]
      omega

/-- Without wide targets every packer keeps to its own estimate, so all packers together exceed theirs by an
entry at most for each but one of them. -/
theorem PackedBy.pages_le (h : a.PackedBy packs) (hwide : ∀ runs ∈ packs, wideOf runs = 0) :
    pagedBytes a.pages.toList + a.pages.size * Paged.tableEntry ≤
      a.relationshipCount * Varint.maxEncodedSize +
        ceilDiv (a.relationshipCount * Varint.maxEncodedSize) bytesPerPage * Paged.tableEntry +
        (packersOf packs - 1) * Paged.tableEntry := by
  obtain ⟨hascends, hpages, hcount⟩ := h
  rw [hcount, ← Array.length_toList, hpages]
  clear hpages hcount
  suffices hall : pagedBytes (packs.flatMap pagesOf) + (packs.flatMap pagesOf).length * Paged.tableEntry +
      min (packersOf packs) 1 * Paged.tableEntry ≤
        (packs.map targetsOf).sum * Varint.maxEncodedSize +
          ceilDiv ((packs.map targetsOf).sum * Varint.maxEncodedSize) bytesPerPage * Paged.tableEntry +
          packersOf packs * Paged.tableEntry ∧ (packersOf packs = 0 → (packs.map targetsOf).sum = 0) by
    obtain ⟨hall, -⟩ := hall
    unfold Paged.tableEntry at *
    omega
  induction packs with
  | nil => simp [pagedBytes, packersOf]
  | cons runs packs ih =>
    have hruns := hascends runs List.mem_cons_self
    have hothers := ih (fun r hr => hwide r (List.mem_cons_of_mem _ hr))
      fun r hr => hascends r (List.mem_cons_of_mem _ hr)
    have hown := bytes_pagesOf_le hruns (hwide runs List.mem_cons_self)
    unfold packersOf at *
    rw [List.flatMap_cons, pagedBytes_append, List.length_append, List.countP_cons, List.map_cons,
      List.sum_cons]
    by_cases hnone : targetsOf runs = 0
    · rw [pagesOf_eq_nil hruns hnone, if_neg (by simpa using hnone), hnone]
      simpa [pagedBytes] using hothers
    · rw [if_pos (by simpa [Nat.pos_iff_ne_zero] using hnone)]
      unfold ceilDiv Varint.maxEncodedSize Paged.tableEntry bytesPerPage at *
      omega

/-! ### Lists that are compressed on the spot -/

theorem compressAll_eq (c : Compressor) (lists : List (List UInt64)) :
    (c.compressAll lists).2 = c.writeAll lists ∧
      ((c.compressAll lists).1.map Run.degree).toList = lists.map Varint.keptCount := by
  constructor
  · induction lists using List.reverseRecOn with
    | nil => rfl
    | append_singleton lists targets ih => rw [compressAll_concat, writeAll_concat, ← ih]
  · have hruns := congrArg (List.map Prod.snd) (c.runs_compressAll lists)
    rw [List.map_map, List.map_map] at hruns
    rw [Array.toList_map]
    exact hruns

/-- Lists that are compressed on the spot go through one packer. -/
theorem packedBy_ofSortedLists {lists : List (List UInt64)} (h : ∀ list ∈ lists, Varint.Ascends list) :
    (ofSortedLists lists).PackedBy [lists] := by
  obtain ⟨hcompressor, hdegrees⟩ := compressAll_eq (.new bytesPerPage) lists
  refine ⟨by simpa using h, ?_, ?_⟩
  · rw [List.flatMap_singleton, pagesOf, ← hcompressor]
    rfl
  · rw [List.map_singleton, List.sum_singleton, targetsOf, ← hdegrees, List.sum_eq_foldl,
      Array.foldl_toList]
    rfl

/-- A node that leads to the first one over and over, more often than a page has bytes, has one page. -/
theorem ofSortedLists_zeros {count : Nat} (h : bytesPerPage < count) :
    let a := ofSortedLists [List.replicate count 0]
    a.nodeCount = 1 ∧ a.relationshipCount = count ∧
      a.bytes = count + Paged.tableEntry + (Paged.bytes 4 1 + Paged.bytes 8 1) := by
  intro a
  have hascends : Varint.Ascends (List.replicate count 0) :=
    (List.pairwise_replicate.mpr (Or.inr (UInt64.le_refl 0))).filter _
  have hpacked : a.PackedBy [List.replicate count 0 :: []] :=
    packedBy_ofSortedLists fun list hlist => List.mem_singleton.mp hlist ▸ hascends
  have hkept : Varint.keptCount (List.replicate count 0) = count := by
    simp [Varint.keptCount, List.countP_replicate, Varint.absent]
  have hcount : a.relationshipCount = count := by
    rw [hpacked.relationshipCount_eq, List.map_singleton, List.sum_singleton, targetsOf,
      List.map_singleton, List.sum_singleton, hkept]
  have hnode : a.nodeCount = 1 := by simp [a, nodeCount, ofSortedLists, ofParts, compressAll]
  have hpages : a.pages.toList = [Varint.encodeValues #[] (Varint.gaps (List.replicate count 0))] := by
    have hsize := Varint.runBytes_replicate_zero count
    rw [hpacked.pages_eq, List.flatMap_singleton, pagesOf]
    change ((new bytesPerPage).compress (List.replicate count 0)).2.finish.toList = _
    have hcases := @compress_cases (new bytesPerPage) (List.replicate count 0) (by omega)
    obtain ⟨-, heq⟩ | ⟨hfits, -⟩ | ⟨hroom, -⟩ := hcases
    · rw [heq, toList_finish]
      rfl
    · exact absurd (hsize ▸ hfits) (Nat.not_le.mpr h)
    · exact absurd (Nat.le_trans (Nat.le_add_left _ _) (hsize ▸ hroom)) (Nat.not_le.mpr h)
  refine ⟨hnode, hcount, ?_⟩
  rw [bytes_eq, hnode, ← Array.length_toList, hpages, pagedBytes_singleton, size_encodeValues,
    Varint.runBytes_replicate_zero]
  simp

/-! ## The estimate -/

/-- The estimate for the counts of an adjacency. -/
def ownEstimate (a : Adjacency) : MemoryRange := estimate ⟨a.nodeCount, a.relationshipCount⟩

/-- The bytes are not below the estimate where no run is longer than a page. -/
theorem PackedBy.min_le (h : a.PackedBy packs) (hpages : ∀ page ∈ a.pages, page.size ≤ bytesPerPage) :
    a.ownEstimate.min ≤ a.bytes := by
  have hleast := h.bounds.1
  have hfull : pagedBytes a.pages.toList ≤ a.pages.size * bytesPerPage := by
    rw [← Array.length_toList, pagedBytes, ← List.length_map (f := Array.size)]
    refine List.sum_le_card_nsmul _ _ fun size hsize => ?_
    obtain ⟨page, hpage, rfl⟩ := List.mem_map.mp hsize
    exact hpages page (Array.mem_toList_iff.mp hpage)
  rw [bytes_eq, ownEstimate, estimate]
  simp only [ceilDiv, Paged.tableEntry, bytesPerPage] at *
  omega

/-- The bytes exceed the estimate by an entry at most for each packer but one. -/
theorem PackedBy.le_max_add (h : a.PackedBy packs) (hwide : ∀ runs ∈ packs, wideOf runs = 0) :
    a.bytes ≤ a.ownEstimate.max + (packersOf packs - 1) * Paged.tableEntry := by
  have hpages := h.pages_le hwide
  rw [bytes_eq, ownEstimate, estimate]
  simp only
  omega

/-- They do not exceed it where there are enough targets for every packer. -/
theorem PackedBy.le_max (h : a.PackedBy packs)
    (hmany : 17 * packersOf packs + 2 * (packs.map wideOf).sum ≤ a.relationshipCount) :
    a.bytes ≤ a.ownEstimate.max := by
  obtain ⟨-, hmost, hlength⟩ := h.bounds
  rw [bytes_eq, ownEstimate, estimate]
  simp only [ceilDiv, Varint.maxEncodedSize, Paged.tableEntry, bytesPerPage] at *
  omega

end Adjacency

end PackedGraph
