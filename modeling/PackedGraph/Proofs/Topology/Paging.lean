import Mathlib.Algebra.GroupWithZero.Nat
import Mathlib.Data.List.Chain
import Mathlib.Data.List.Induction
import PackedGraph.Proofs.Codec.Gaps
import PackedGraph.Proofs.Topology.Compressor

/-!
# How many bytes and pages runs take

A run takes between one and ten bytes for every target.  A page is closed when the next run does not fit
onto it, so of two neighbouring pages the bytes do not fit onto one; this is the argument by which a
packer that goes on to the next bin needs at most twice as many bins as there are bins to fill.

Main statements: `Varint.runBytes_bounds` for a run, `Compressor.Crowded.pages_le` for the pages.
-/

namespace PackedGraph

/-! ## The bytes of a run -/

namespace Varint

/-- The targets that may take ten bytes. -/
def wideCount (targets : List UInt64) : Nat :=
  (kept targets).countP fun target => decide (9223372036854775808 ≤ target.toNat)

theorem length_wordBytes_bounds {low : UInt64} {values : List UInt64} (h : AscendsFrom low values) :
    values.length ≤ (wordBytes (gapList low values)).length ∧
      (wordBytes (gapList low values)).length ≤
        9 * values.length + values.countP fun value => decide (9223372036854775808 ≤ value.toNat) := by
  induction values generalizing low with
  | nil => simp [gapList]
  | cons value rest ih =>
    obtain ⟨hleast, hmost⟩ := ih h.tail
    have hgap : (value - low).toNat ≤ value.toNat := by
      rw [UInt64.toNat_sub_of_le _ _ h.low_le]
      exact Nat.sub_le _ _
    have hpos : 0 < (chunks (value - low).toNat).length := List.length_pos_of_ne_nil (chunks_ne_nil _)
    have hle := length_chunks_le (value - low).toNat_lt
    rw [wordBytes_gapList_cons h, List.length_append, List.length_cons, List.countP_cons]
    refine ⟨by omega, ?_⟩
    by_cases hwide : 9223372036854775808 ≤ value.toNat
    · rw [if_pos (decide_eq_true hwide)]
      split at hle <;> omega
    · rw [if_neg (by simpa using hwide)]
      rw [if_pos (by omega)] at hle
      omega

/-- The bytes of a run. -/
def runBytes (targets : List UInt64) : Nat := encodedSizeOf (gaps targets)

/-- A run takes a byte for every target at least, and nine at most but for the wide ones. -/
theorem runBytes_bounds {targets : List UInt64} (h : Ascends targets) :
    keptCount targets ≤ runBytes targets ∧
      runBytes targets ≤ 9 * keptCount targets + wideCount targets := by
  rw [runBytes, encodedSizeOf_eq, gaps_eq, wordBytes_gapList_kept, keptCount_eq_length, wideCount]
  exact length_wordBytes_bounds h.from_zero

theorem runBytes_eq_zero {targets : List UInt64} (h : Ascends targets) (hkept : keptCount targets = 0) :
    runBytes targets = 0 := by
  have hle := (runBytes_bounds h).2
  rw [keptCount_eq_length, List.length_eq_zero_iff] at hkept
  rw [keptCount_eq_length, wideCount, hkept] at hle
  simpa using hle

/-- A node that leads to the first one over and over takes a byte each time. -/
theorem runBytes_replicate_zero (count : Nat) : runBytes (List.replicate count 0) = count := by
  rw [runBytes, encodedSizeOf_eq, gaps_eq]
  induction count with
  | zero => rfl
  | succ count ih =>
    rw [List.replicate_succ, gapList, if_neg (by decide), wordBytes_cons, if_neg (by decide),
      List.length_append, UInt64.sub_self, ih, length_chunks]
    simp [Nat.add_comm]

end Varint

/-! ## Pages -/

/-- The bytes on some pages. -/
def pagedBytes (pages : List Page) : Nat := (pages.map Array.size).sum

theorem pagedBytes_append (pages more : List Page) :
    pagedBytes (pages ++ more) = pagedBytes pages + pagedBytes more := by
  rw [pagedBytes, List.map_append, List.sum_append]
  rfl

@[simp] theorem pagedBytes_singleton (page : Page) : pagedBytes [page] = page.size := by
  simp [pagedBytes]

/-- What lies on two neighbouring pages does not fit onto one. -/
def Tight (pageBytes : Nat) (pages : List Page) : Prop :=
  pages.IsChain fun page next => pageBytes < page.size + next.size

/-- So there are at most twice as many pages as are filled, and one more. -/
theorem Tight.length_le {pageBytes : Nat} {pages : List Page} (h : Tight pageBytes pages) :
    pages.length * pageBytes ≤ 2 * pagedBytes pages + pageBytes := by
  -- what is on the first page is counted once, and everything behind it twice
  suffices hfirst : ∀ (page : Page) (rest : List Page), Tight pageBytes (page :: rest) →
      rest.length * pageBytes ≤ page.size + 2 * pagedBytes rest by
    cases pages with
    | nil => simp
    | cons page rest =>
      have := hfirst page rest h
      rw [List.length_cons, Nat.succ_mul, pagedBytes, List.map_cons, List.sum_cons, ← pagedBytes]
      omega
  intro page rest
  induction rest generalizing page with
  | nil => simp
  | cons next rest ih =>
    intro hchain
    obtain ⟨hpair, hrest⟩ := List.isChain_cons_cons.mp hchain
    have := ih next hrest
    rw [List.length_cons, Nat.succ_mul, pagedBytes, List.map_cons, List.sum_cons, ← pagedBytes]
    omega

/-- A page more behind others that are tight. -/
theorem Tight.concat {pageBytes : Nat} {pages : List Page} {page : Page} (h : Tight pageBytes pages)
    (hlast : ∀ last ∈ pages.getLast?, pageBytes < last.size + page.size) : Tight pageBytes (pages ++ [page]) := by
  refine List.isChain_append.mpr ⟨h, List.isChain_singleton page, fun last hmem next hnext => ?_⟩
  obtain rfl : page = next := by simpa using hnext
  exact hlast last hmem

namespace Compressor

/-- The pages, the open one last if it holds anything. -/
theorem toList_finish (c : Compressor) :
    c.finish.toList = c.pages.toList ++ if c.current.isEmpty then [] else [c.current] := by
  unfold finish closePage
  by_cases h : c.current.isEmpty <;> simp [h]

/-- The pages are tight, also together with a run that does not fit onto the last one. -/
structure Crowded (c : Compressor) : Prop where
  /-- The pages are tight. -/
  tight : Tight c.pageBytes c.finish.toList
  /-- Where no page is open, the last one is full. -/
  last_full : c.current.isEmpty = true → ∀ page ∈ c.pages.toList.getLast?, c.pageBytes < page.size

theorem crowded_new (pageBytes : Nat) : (new pageBytes).Crowded :=
  ⟨by simp [toList_finish, new, Tight], by simp [new]⟩

/-- A closed compressor has only closed pages. -/
theorem closePage_eq (c : Compressor) : c.closePage = { c with pages := c.finish, current := #[] } := by
  unfold finish closePage
  by_cases h : c.current.isEmpty
  · rw [if_pos h]
    have := Array.isEmpty_iff.mp h
    cases c
    simp_all
  · rw [if_neg h]

/-- What a run does: one that is longer than a page gets a page of its own, one that does not fit onto the
open page begins the next one, and any other goes onto the open page. -/
theorem compress_cases (c : Compressor) {targets : List UInt64} (h : Varint.keptCount targets ≠ 0) :
    (c.pageBytes < Varint.runBytes targets ∧ (c.compress targets).2 =
        { c with pages := c.finish.push (Varint.encodeValues #[] (Varint.gaps targets)), current := #[] }) ∨
      (Varint.runBytes targets ≤ c.pageBytes ∧
        c.pageBytes < c.current.size + Varint.runBytes targets ∧ (c.compress targets).2 =
          { c with pages := c.finish, current := Varint.encodeValues #[] (Varint.gaps targets) }) ∨
      (c.current.size + Varint.runBytes targets ≤ c.pageBytes ∧ (c.compress targets).2 =
        { c with current := Varint.encodeValues c.current (Varint.gaps targets) }) := by
  simp only [compress, if_neg h, Varint.runBytes]
  by_cases hlong : c.pageBytes < Varint.encodedSizeOf (Varint.gaps targets)
  · refine .inl ⟨hlong, ?_⟩
    rw [if_pos hlong, closePage_eq]
  · rw [if_neg hlong]
    by_cases hfull : c.pageBytes < c.current.size + Varint.encodedSizeOf (Varint.gaps targets)
    · refine .inr (.inl ⟨not_lt.mp hlong, hfull, ?_⟩)
      rw [if_pos hfull, closePage_eq]
    · refine .inr (.inr ⟨not_lt.mp hfull, ?_⟩)
      rw [if_neg hfull]

/-- A run without targets leaves no trace. -/
theorem compress_of_no_targets (c : Compressor) {targets : List UInt64} (h : Varint.keptCount targets = 0) :
    (c.compress targets).2 = c := by
  simp only [compress, if_pos h]

theorem size_encodeValues (page : Page) (targets : List UInt64) :
    (Varint.encodeValues page (Varint.gaps targets)).size = page.size + Varint.runBytes targets := by
  rw [Varint.encodeValues_eq, Varint.runBytes, Varint.encodedSizeOf_eq, size_append_bytes]

theorem pageBytes_compress (c : Compressor) (targets : List UInt64) :
    (c.compress targets).2.pageBytes = c.pageBytes := by
  by_cases h : Varint.keptCount targets = 0
  · rw [compress_of_no_targets c h]
  · obtain ⟨-, heq⟩ | ⟨-, -, heq⟩ | ⟨-, heq⟩ := c.compress_cases h <;> rw [heq]

/-- The page that is open and holds something is the last one. -/
theorem toList_finish_of_open {c : Compressor} (h : 0 < c.current.size) :
    c.finish.toList = c.pages.toList ++ [c.current] := by
  have hopen : ¬ c.current.isEmpty := by
    rw [Array.isEmpty_iff_size_eq_zero]
    omega
  rw [toList_finish, if_neg hopen]

theorem Crowded.of_open {c : Compressor} (hsize : 0 < c.current.size)
    (htight : Tight c.pageBytes (c.pages.toList ++ [c.current])) : c.Crowded := by
  refine ⟨toList_finish_of_open hsize ▸ htight, fun hempty => ?_⟩
  rw [Array.isEmpty_iff_size_eq_zero] at hempty
  omega

/-- A page that is longer than others closes what is open. -/
theorem Crowded.push_long {c : Compressor} (h : c.Crowded) {page : Page} (hlong : c.pageBytes < page.size) :
    Crowded { c with pages := c.finish.push page, current := #[] } := by
  refine ⟨?_, fun _ last hlast => ?_⟩
  · simp only [toList_finish, Array.toList_push, Array.isEmpty_empty, if_true, List.append_nil]
    rw [← toList_finish]
    exact h.tight.concat fun last _ => by omega
  · obtain rfl : _ = last := by simpa using hlast
    exact hlong

/-- A page is begun for what does not fit onto the open one. -/
theorem Crowded.begin_next {c : Compressor} (h : c.Crowded) {page : Page} (hfits : page.size ≤ c.pageBytes)
    (hfull : c.pageBytes < c.current.size + page.size) (hsize : 0 < page.size) :
    Crowded { c with pages := c.finish, current := page } := by
  refine .of_open hsize (h.tight.concat fun last hlast => ?_)
  rw [toList_finish_of_open (by omega), List.getLast?_concat, Option.mem_some_iff] at hlast
  rw [← hlast]
  exact hfull

/-- The open page may grow. -/
theorem Crowded.grow {c : Compressor} (h : c.Crowded) {page : Page} (hgrown : c.current.size ≤ page.size)
    (hsize : 0 < page.size) : Crowded { c with current := page } := by
  refine .of_open hsize ?_
  have htight := h.tight
  rw [toList_finish] at htight
  by_cases hcurrent : c.current.isEmpty
  · -- the page in front of a new one is full, because it has been closed for a run of its own
    rw [if_pos hcurrent, List.append_nil] at htight
    exact htight.concat fun last hlast => Nat.lt_add_right _ (h.last_full hcurrent last hlast)
  · rw [if_neg hcurrent] at htight
    obtain ⟨hfront, -, hpairs⟩ := List.isChain_append.mp htight
    refine Tight.concat hfront fun last hlast => ?_
    have hpair := hpairs last hlast c.current (by simp)
    exact Nat.lt_of_lt_of_le hpair (Nat.add_le_add_left hgrown _)

/-- A run keeps the pages tight. -/
theorem Crowded.compress {c : Compressor} (h : c.Crowded) {targets : List UInt64}
    (htargets : Varint.Ascends targets) : (c.compress targets).2.Crowded := by
  by_cases hkept : Varint.keptCount targets = 0
  · rwa [compress_of_no_targets c hkept]
  have hpos : 0 < Varint.runBytes targets :=
    Nat.lt_of_lt_of_le (Nat.pos_of_ne_zero hkept) (Varint.runBytes_bounds htargets).1
  have hwritten := size_encodeValues #[] targets
  rw [Array.size_empty, Nat.zero_add] at hwritten
  obtain ⟨hlong, heq⟩ | ⟨hfits, hfull, heq⟩ | ⟨-, heq⟩ := c.compress_cases hkept
  · rw [heq]
    exact h.push_long (hwritten ▸ hlong)
  · rw [heq]
    exact h.begin_next (hwritten ▸ hfits) (hwritten ▸ hfull) (hwritten ▸ hpos)
  · rw [heq]
    have hgrown := size_encodeValues c.current targets
    exact h.grow (by omega) (by omega)

/-- A run adds its bytes to those on the pages. -/
theorem pagedBytes_compress (c : Compressor) {targets : List UInt64} (h : Varint.Ascends targets) :
    pagedBytes (c.compress targets).2.finish.toList =
      pagedBytes c.finish.toList + Varint.runBytes targets := by
  by_cases hkept : Varint.keptCount targets = 0
  · rw [compress_of_no_targets c hkept, Varint.runBytes_eq_zero h hkept, Nat.add_zero]
  have hfinish : ∀ c : Compressor, pagedBytes c.finish.toList =
      pagedBytes c.pages.toList + c.current.size := by
    intro c
    rw [toList_finish, pagedBytes_append]
    by_cases hempty : c.current.isEmpty
    · simp [Array.isEmpty_iff.mp hempty, pagedBytes]
    · simp [hempty]
  have hwritten := size_encodeValues #[] targets
  rw [Array.size_empty, Nat.zero_add] at hwritten
  obtain ⟨-, heq⟩ | ⟨-, -, heq⟩ | ⟨-, heq⟩ := c.compress_cases hkept
  · rw [heq, hfinish]
    simp only [Array.toList_push, pagedBytes_append, pagedBytes_singleton, Array.size_empty, hwritten,
      Nat.add_zero]
  · rw [heq, hfinish]
    simp only [hwritten]
  · rw [heq, hfinish, hfinish c]
    simp only [size_encodeValues]
    omega

/-- All runs of a compressor: its pages are tight, hold the bytes of the runs, and are none where no run has a
target. -/
theorem crowded_writeAll (pageBytes : Nat) {runs : List (List UInt64)}
    (h : ∀ run ∈ runs, Varint.Ascends run) :
    let c := (new pageBytes).writeAll runs
    c.Crowded ∧ c.pageBytes = pageBytes ∧ pagedBytes c.finish.toList = (runs.map Varint.runBytes).sum ∧
      ((∀ run ∈ runs, Varint.keptCount run = 0) → c.finish = #[]) := by
  induction runs using List.reverseRecOn with
  | nil => exact ⟨crowded_new pageBytes, rfl, rfl, fun _ => rfl⟩
  | append_singleton runs run ih =>
    obtain ⟨hcrowded, hpage, hbytes, hnone⟩ := ih fun r hr => h r (List.mem_append_left _ hr)
    have hrun := h run (List.mem_append_right _ (List.mem_singleton_self run))
    simp only [writeAll_concat]
    refine ⟨hcrowded.compress hrun, (pageBytes_compress _ run).trans hpage, ?_, fun hempty => ?_⟩
    · rw [pagedBytes_compress _ hrun, hbytes, List.map_append, List.sum_append, List.map_singleton,
        List.sum_singleton]
    · rw [compress_of_no_targets _ (hempty run (List.mem_append_right _ (List.mem_singleton_self run)))]
      exact hnone fun r hr => hempty r (List.mem_append_left _ hr)

end Compressor

end PackedGraph
