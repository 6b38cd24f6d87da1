import Mathlib.Data.List.Induction
import PackedGraph.Proofs.Topology.Compressor
import PackedGraph.Proofs.Topology.Paging

/-!
# Runs fill pages without overlaps and gaps

Writing a run is putting its bytes onto the open page, after closing that page where the run does not fit onto
it, and before closing it again where the run is longer than a page.  So it is enough to know what closing
(`Laid.closePage`) and putting bytes onto the open page (`Laid.extend`) do to pages and to the runs that have been
handed out: the pages stay the runs in order, a run stays where its address says, and no byte gets a second
run.

Main statements: `Compressor.compress_eq_extend` takes writing a run apart, `Laid.compress` is one run and
`laid_compressAll` any number of them; `runs_fill_pages` is about the pages that are handed out, and
`words_of_runs` about the words that are handed out with them.
-/

namespace PackedGraph

/-! ## Runs and pages -/

namespace Run

/-- The bytes of a run. -/
def content (run : Run) : List UInt8 := (Varint.encodeValues #[] run.gaps).toList

/-- A byte of the pages belongs to a run. -/
def Occupies (run : Run) (page offset : Nat) : Prop :=
  page = Address.page run.address ∧ Address.offset run.address ≤ offset ∧
    offset < Address.offset run.address + run.content.length

/-- No byte belongs to both runs. -/
def Apart (run other : Run) : Prop := ∀ page offset, ¬ (run.Occupies page offset ∧ other.Occupies page offset)

theorem content_eq (run : Run) : run.content = Varint.wordBytes run.gaps := by
  rw [content, Varint.encodeValues_eq, Array.toList_appendList, List.nil_append]

/-- A run of ascending targets has bytes just in case it has targets. -/
theorem content_eq_nil_iff {run : Run} {targets : List UInt64} (hgaps : run.gaps = Varint.gaps targets)
    (hdegree : run.degree = Varint.keptCount targets) (h : Varint.Ascends targets) :
    run.content = [] ↔ run.degree = 0 := by
  rw [content_eq, hgaps, hdegree, ← List.length_eq_zero_iff, ← Varint.encodedSizeOf_eq]
  refine ⟨fun hnone => ?_, Varint.runBytes_eq_zero h⟩
  have hle := (Varint.runBytes_bounds h).1
  rw [Varint.runBytes, hnone] at hle
  exact Nat.eq_zero_of_le_zero hle

theorem Apart.symm {run other : Run} (h : run.Apart other) : other.Apart run :=
  fun page offset hboth => h page offset hboth.symm

/-- A run without bytes lies nowhere. -/
theorem not_occupies_of_nil {run : Run} (h : run.content = []) (page offset : Nat) : ¬ run.Occupies page offset := by
  rintro ⟨-, hle, hlt⟩
  rw [h, List.length_nil] at hlt
  omega

end Run

/-- A byte of a run that stands at its address is a byte of its page. -/
theorem Located.lt_size {pages : Array Page} {run : Run} (h : Located pages run.address run.content)
    {page offset : Nat} (hoccupies : run.Occupies page offset) :
    ∃ found, pages[page]? = some found ∧ offset < found.size := by
  obtain ⟨found, hfound, hholds⟩ := h
  obtain ⟨rfl, hle, hlt⟩ := hoccupies
  refine ⟨found, hfound, ?_⟩
  have hsize : found.toList.length = found.size := Array.length_toList
  have hlength := hholds.length_le
  rw [List.length_drop] at hlength
  omega

/-- How runs lie on the pages that are handed out. -/
structure Layout (pageBytes : Nat) (written : List Run) (pages : Array Page) : Prop where
  /-- The bytes of the pages are those of the runs, in order, and no others. -/
  joined : pages.toList.flatMap Array.toList = written.flatMap Run.content
  /-- No page is empty. -/
  page_ne_empty : ∀ page ∈ pages, page ≠ #[]
  /-- A run that has targets has bytes, all of them on the page that its address names, from the offset on
  that its address names. -/
  located : ∀ run ∈ written, run.degree ≠ 0 → run.content ≠ [] ∧ Located pages run.address run.content
  /-- No byte belongs to two runs. -/
  apart : written.Pairwise Run.Apart
  /-- A page is no longer than pages should be, or holds a single run that is longer than that. -/
  page_size : ∀ (index : Nat) (page : Page), pages[index]? = some page →
    page.size ≤ pageBytes ∨ ∃ (number : Nat) (run : Run), written[number]? = some run ∧
      pageBytes < run.content.length ∧ run.address = Address.pack index 0 ∧ page.toList = run.content ∧
      ∀ (other : Nat) (second : Run), written[other]? = some second → second.degree ≠ 0 →
        Address.page second.address = index → other = number
  /-- Behind other pages the moved address of a run fits into a word as long as the page numbers take half of
  it, and its halves are the number of the same page and the same offset. -/
  rebased : ∀ front : Array Page, front.size + pages.size ≤ 4294967296 → ∀ run ∈ written, run.degree ≠ 0 →
    (UInt64.ofNat run.address + UInt64.ofNat front.size <<< 32).toNat = Address.rebase run.address front.size ∧
      (front ++ pages)[((UInt64.ofNat run.address + UInt64.ofNat front.size <<< 32) >>> 32).toNat]? =
        pages[Address.page run.address]? ∧
      ((UInt64.ofNat run.address + UInt64.ofNat front.size <<< 32) &&& 4294967295).toNat =
        Address.offset run.address

/-! ## Addresses in words -/

namespace Address

/-- A word that holds an address has the page number in its upper half and the offset in its lower. -/
theorem halves_of_word {word : UInt64} {address : Nat} (h : word.toNat = address) :
    (word >>> 32).toNat = page address ∧ (word &&& 4294967295).toNat = offset address := by
  subst h
  constructor
  · rw [UInt64.toNat_shiftRight, Nat.shiftRight_eq_div_pow]
    rfl
  · rw [UInt64.toNat_and]
    exact Nat.and_two_pow_sub_one_eq_mod word.toNat 32

/-- The shifted page number and the offset in one word are the packed address, as far as it fits. -/
theorem word_eq {page offset : Nat} (h : offset < offsetBound) : word page offset = UInt64.ofNat (pack page offset) := by
  rw [offsetBound] at h
  have hupper : (UInt64.ofNat page <<< 32).toNat = (page % 2 ^ 32) <<< 32 := by
    rw [UInt64.toNat_shiftLeft, UInt64.toNat_ofNat', Nat.shiftLeft_eq]
    change page % 2 ^ 64 * 2 ^ 32 % 2 ^ 64 = _
    omega
  refine UInt64.toNat_inj.mp ?_
  rw [word, UInt64.toNat_or, hupper, UInt64.toNat_ofNat_of_lt' (show offset < 2 ^ 64 by omega),
    ← Nat.shiftLeft_add_eq_or_of_lt (show offset < 2 ^ 32 from h), UInt64.toNat_ofNat', Nat.shiftLeft_eq, pack,
    offsetBound]
  omega

/-- Addresses whose page numbers take half a word are moved by adding to that half. -/
theorem toNat_rebase {address pages : Nat} (h : page address + pages < 4294967296) :
    (UInt64.ofNat address + UInt64.ofNat pages <<< 32).toNat = rebase address pages := by
  rw [page, offsetBound] at h
  rw [UInt64.toNat_add, UInt64.toNat_shiftLeft, UInt64.toNat_ofNat_of_lt' (show _ < 2 ^ 64 by omega),
    UInt64.toNat_ofNat_of_lt' (show _ < 2 ^ 64 by omega), Nat.shiftLeft_eq, rebase, offsetBound]
  change (address + pages * 2 ^ 32 % 2 ^ 64) % 2 ^ 64 = _
  omega

end Address

/-! ## Writing a run -/

namespace Compressor

/-- Put bytes onto the open page. -/
def extend (c : Compressor) (content : List UInt8) : Compressor := { c with current := c.current ++ content }

/-- Bytes on an empty open page that is closed again are a page of their own. -/
theorem closePage_extend {c : Compressor} (h : c.current = #[]) {content : List UInt8} (hcontent : content ≠ []) :
    (c.extend content).closePage = { c with pages := c.pages.push ((#[] : Page) ++ content) } := by
  have hlength := List.length_pos_of_ne_nil hcontent
  have hopen : ¬ (c.extend content).current.isEmpty := by
    rw [extend, Array.isEmpty_iff_size_eq_zero, size_append_bytes]
    omega
  rw [closePage, if_neg hopen, extend, h]

/-- What a run of targets leads to: a compressor that is ready for it, because the open page is closed where it
must be, takes its bytes, and the page is closed again if it has grown too long.  The run lies where the open
page ended. -/
theorem compress_eq_extend (c : Compressor) {targets : List UInt64} (h : Varint.keptCount targets ≠ 0)
    (hcontent : Varint.wordBytes (Varint.gaps targets) ≠ []) :
    ∃ ready : Compressor, (ready = c ∨ ready = c.closePage) ∧
      (ready.current = #[] ∨
        ready.current.size + (Varint.wordBytes (Varint.gaps targets)).length ≤ ready.pageBytes) ∧
      (c.compress targets).1 =
        ⟨Address.pack ready.pages.size ready.current.size, Varint.keptCount targets, Varint.gaps targets⟩ ∧
      ((c.compress targets).2 = ready.extend (Varint.wordBytes (Varint.gaps targets)) ∨
        (c.compress targets).2 = (ready.extend (Varint.wordBytes (Varint.gaps targets))).closePage) := by
  simp only [compress, if_neg h, Varint.encodedSizeOf_eq, Varint.encodeValues_eq]
  by_cases hlong : c.pageBytes < (Varint.wordBytes (Varint.gaps targets)).length
  · rw [if_pos hlong]
    refine ⟨c.closePage, .inr rfl, .inl c.current_closePage, by rw [current_closePage]; rfl, .inr ?_⟩
    rw [closePage_extend c.current_closePage hcontent]
  · rw [if_neg hlong]
    by_cases hfits : c.pageBytes < c.current.size + (Varint.wordBytes (Varint.gaps targets)).length
    · rw [if_pos hfits]
      exact ⟨c.closePage, .inr rfl, .inl c.current_closePage, rfl, .inl rfl⟩
    · rw [if_neg hfits]
      exact ⟨c, .inl rfl, .inr (not_lt.mp hfits), rfl, .inl rfl⟩

/-- A page is no longer than pages should be, or its bytes are those of a run that is longer than that. -/
def Fits (pageBytes : Nat) (written : List Run) (index : Nat) (page : Page) : Prop :=
  page.size ≤ pageBytes ∨ ∃ run ∈ written,
    pageBytes < run.content.length ∧ run.address = Address.pack index 0 ∧ page.toList = run.content

theorem Fits.concat {pageBytes : Nat} {written : List Run} {index : Nat} {page : Page}
    (h : Fits pageBytes written index page) (run : Run) :
    Fits pageBytes (written ++ [run]) index page := by
  obtain hle | ⟨other, hother, hrest⟩ := h
  · exact .inl hle
  · exact .inr ⟨other, List.mem_append_left _ hother, hrest⟩

/-- How runs lie on the pages of a compressor, the open one included. -/
structure Laid (c : Compressor) (written : List Run) : Prop where
  /-- The bytes of the pages are those of the runs, in order. -/
  joined : c.stored.toList.flatMap Array.toList = written.flatMap Run.content
  /-- No closed page is empty. -/
  closed_ne_empty : ∀ page ∈ c.pages, page ≠ #[]
  /-- A run that has bytes stands at its address. -/
  located : ∀ run ∈ written, run.content ≠ [] → Located c.stored run.address run.content
  /-- No byte belongs to two runs. -/
  apart : written.Pairwise Run.Apart
  /-- A page that is too long holds the bytes of one run. -/
  page_size : ∀ (index : Nat) (page : Page), c.stored[index]? = some page →
    Fits c.pageBytes written index page

/-- A byte of a run that has been handed out is a byte of a page. -/
theorem Laid.lt_size {c : Compressor} {written : List Run} (h : c.Laid written) {run : Run} (hrun : run ∈ written)
    {page offset : Nat} (hoccupies : run.Occupies page offset) :
    ∃ found, c.stored[page]? = some found ∧ offset < found.size :=
  (h.located run hrun fun hnil => Run.not_occupies_of_nil hnil _ _ hoccupies).lt_size hoccupies

theorem laid_new (pageBytes : Nat) : (new pageBytes).Laid [] := by
  refine ⟨rfl, by simp [new], by simp, .nil, fun index page hpage => .inl ?_⟩
  have : page = #[] := by
    have hmem := Array.mem_of_getElem? hpage
    simpa [stored, new] using hmem
  rw [this]
  exact Nat.zero_le _

/-- Closing the open page adds an empty one where the other was not. -/
theorem stored_closePage (c : Compressor) :
    c.closePage.stored = if c.current.isEmpty then c.stored else c.stored.push #[] := by
  unfold stored closePage
  by_cases h : c.current.isEmpty
  · rw [if_pos h, if_pos h]
  · rw [if_neg h, if_neg h]

/-- Closing the open page leaves all runs where they are. -/
theorem Laid.closePage {c : Compressor} {written : List Run} (h : c.Laid written) : c.closePage.Laid written := by
  by_cases hempty : c.current.isEmpty
  · rwa [Compressor.closePage, if_pos hempty]
  have hstored := c.stored_closePage
  rw [if_neg hempty] at hstored
  refine ⟨?_, ?_, ?_, h.apart, ?_⟩
  · rw [hstored, Array.toList_push, List.flatMap_append, h.joined]
    simp
  · intro page hpage
    rw [Compressor.closePage, if_neg hempty, Array.mem_push] at hpage
    rcases hpage with hpage | rfl
    · exact h.closed_ne_empty page hpage
    · exact fun heq => hempty (by rw [heq]; rfl)
  · intro run hrun hcontent
    rw [hstored]
    exact keeps_push _ _ _ _ hcontent (h.located run hrun hcontent)
  · intro index page hpage
    rw [pageBytes_closePage]
    rw [hstored, Array.getElem?_push] at hpage
    split at hpage
    case isTrue =>
      obtain rfl := Option.some.inj hpage
      exact .inl (Nat.zero_le _)
    case isFalse => exact h.page_size index page hpage

/-- The open page takes a run that fits onto it, or any run while it is empty. -/
theorem Laid.extend {c : Compressor} {written : List Run} (h : c.Laid written)
    (hroom : c.pageBytes ≤ Address.offsetBound) {run : Run} (hcontent : run.content ≠ [])
    (hfits : c.current = #[] ∨ c.current.size + run.content.length ≤ c.pageBytes)
    (haddress : run.address = Address.pack c.pages.size c.current.size) :
    (c.extend run.content).Laid (written ++ [run]) := by
  have hlength := List.length_pos_of_ne_nil hcontent
  have hoffset : c.current.size < Address.offsetBound := by
    rcases hfits with hempty | hfits
    · rw [hempty]
      decide
    · omega
  refine ⟨?_, h.closed_ne_empty, ?_, ?_, ?_⟩
  · have hjoined := h.joined
    rw [stored, Array.toList_push, List.flatMap_append] at hjoined
    rw [stored, Compressor.extend, Array.toList_push, List.flatMap_append, List.flatMap_append, ← hjoined]
    simp
  · intro other hother hne
    rcases List.mem_append.mp hother with hother | hother
    · exact keeps_grow _ _ _ _ _ hne (h.located other hother hne)
    · rw [List.mem_singleton.mp hother, haddress]
      exact located_push _ _ _ hoffset
  · refine List.pairwise_append.mpr ⟨h.apart, List.pairwise_singleton _ _, fun other hother second hsecond => ?_⟩
    rw [List.mem_singleton.mp hsecond]
    rintro page offset ⟨hfirst, hpage, hle, -⟩
    -- bytes of earlier runs lie in front of the end of the open page, where this run begins
    obtain ⟨found, hfound, hlt⟩ := h.lt_size hother hfirst
    rw [haddress, Address.page_pack hoffset] at hpage
    rw [haddress, Address.offset_pack hoffset] at hle
    rw [stored, hpage, Array.getElem?_push_size, Option.some_inj] at hfound
    rw [← hfound] at hlt
    omega
  · intro index page hpage
    rw [stored, Compressor.extend, Array.getElem?_push] at hpage
    split at hpage
    case isTrue heq =>
      obtain rfl := Option.some.inj hpage
      by_cases hlong : c.pageBytes < c.current.size + run.content.length
      · have hempty : c.current = #[] := hfits.resolve_right (not_le.mpr hlong)
        rw [hempty, Array.size_empty, Nat.zero_add] at hlong
        refine .inr ⟨run, List.mem_append_right _ (List.mem_singleton_self run), hlong, ?_, ?_⟩
        · rw [haddress, heq, hempty, Array.size_empty]
        · rw [hempty, Array.toList_appendList, List.nil_append]
      · refine .inl ?_
        rw [size_append_bytes]
        exact not_lt.mp hlong
    case isFalse hne =>
      have hstored : c.stored[index]? = some page := by
        rw [stored, Array.getElem?_push, if_neg hne]
        exact hpage
      exact (h.page_size index page hstored).concat run

/-- A run without bytes leaves everything as it is. -/
theorem Laid.concat_nil {c : Compressor} {written : List Run} (h : c.Laid written) {run : Run}
    (hcontent : run.content = []) : c.Laid (written ++ [run]) := by
  refine ⟨?_, h.closed_ne_empty, ?_, ?_, ?_⟩
  · rw [h.joined, List.flatMap_append, List.flatMap_singleton, hcontent, List.append_nil]
  · intro other hother hne
    rcases List.mem_append.mp hother with hother | hother
    · exact h.located other hother hne
    · rw [List.mem_singleton.mp hother] at hne
      exact absurd hcontent hne
  · refine List.pairwise_append.mpr ⟨h.apart, List.pairwise_singleton _ _, fun other _ second hsecond => ?_⟩
    rw [List.mem_singleton.mp hsecond]
    exact fun page offset hboth => Run.not_occupies_of_nil hcontent page offset hboth.2
  · exact fun index page hpage => (h.page_size index page hpage).concat run

/-- A run more. -/
theorem Laid.compress {c : Compressor} {written : List Run} (h : c.Laid written)
    (hroom : c.pageBytes ≤ Address.offsetBound) {targets : List UInt64} (htargets : Varint.Ascends targets) :
    (c.compress targets).2.Laid (written ++ [(c.compress targets).1]) := by
  have hnil := Run.content_eq_nil_iff (c.gaps_compress targets) (c.degree_compress targets) htargets
  rw [degree_compress] at hnil
  by_cases hkept : Varint.keptCount targets = 0
  · rw [compress_of_no_targets c hkept]
    exact h.concat_nil (hnil.mpr hkept)
  have hcontent : (c.compress targets).1.content = Varint.wordBytes (Varint.gaps targets) := by
    rw [Run.content_eq, gaps_compress]
  have hne : (c.compress targets).1.content ≠ [] := fun heq => hkept (hnil.mp heq)
  rw [hcontent] at hne
  obtain ⟨ready, hready, hfits, hrun, hafter⟩ := c.compress_eq_extend hkept hne
  have hlaid : ready.Laid written := by
    rcases hready with rfl | rfl
    · exact h
    · exact h.closePage
  have hpage : ready.pageBytes = c.pageBytes := by
    rcases hready with rfl | rfl
    · rfl
    · exact c.pageBytes_closePage
  rw [← hcontent] at hne hfits hafter
  have hextended := hlaid.extend (hpage ▸ hroom) hne hfits (by rw [hrun])
  rcases hafter with hafter | hafter
  · rw [hafter]
    exact hextended
  · rw [hafter]
    exact hextended.closePage

theorem pageBytes_compressAll (c : Compressor) (lists : List (List UInt64)) :
    (c.compressAll lists).2.pageBytes = c.pageBytes := by
  induction lists using List.reverseRecOn with
  | nil => rfl
  | append_singleton lists targets ih => rw [compressAll_concat, pageBytes_compress, ih]

/-- All runs of a compressor. -/
theorem laid_compressAll {pageBytes : Nat} (hpage : pageBytes ≤ Address.offsetBound)
    {lists : List (List UInt64)} (h : ∀ targets ∈ lists, Varint.Ascends targets) :
    ((new pageBytes).compressAll lists).2.Laid ((new pageBytes).compressAll lists).1.toList := by
  induction lists using List.reverseRecOn with
  | nil => exact laid_new pageBytes
  | append_singleton lists targets ih =>
    have hlaid := ih fun other hother => h other (List.mem_append_left _ hother)
    have htargets := h targets (List.mem_append_right _ (List.mem_singleton_self targets))
    rw [compressAll_concat, Array.toList_push]
    exact hlaid.compress (by rw [pageBytes_compressAll]; exact hpage) htargets

/-- A run with targets that is handed out has bytes. -/
theorem content_ne_nil_of_mem {c : Compressor} {lists : List (List UInt64)}
    (h : ∀ targets ∈ lists, Varint.Ascends targets) {run : Run} (hrun : run ∈ (c.compressAll lists).1.toList)
    (hdegree : run.degree ≠ 0) : run.content ≠ [] := by
  have hmem := List.mem_map_of_mem (f := fun run : Run => (run.gaps, run.degree)) hrun
  rw [runs_compressAll] at hmem
  obtain ⟨targets, htargets, heq⟩ := List.mem_map.mp hmem
  obtain ⟨hgaps, hcount⟩ := Prod.mk.inj heq
  exact fun hnil => hdegree ((Run.content_eq_nil_iff hgaps.symm hcount.symm (h targets htargets)).mp hnil)

end Compressor

/-! ## The pages that are handed out -/

theorem apart_of_ne {written : List Run} (h : written.Pairwise Run.Apart) {first second : Nat} {run other : Run}
    (hne : first ≠ second) (hrun : written[first]? = some run) (hother : written[second]? = some other) :
    run.Apart other := by
  obtain ⟨hfirst, rfl⟩ := List.getElem?_eq_some_iff.mp hrun
  obtain ⟨hsecond, rfl⟩ := List.getElem?_eq_some_iff.mp hother
  have hpairs := List.pairwise_iff_getElem.mp h
  rcases Nat.lt_or_gt_of_ne hne with hlt | hgt
  · exact hpairs first second hfirst hsecond hlt
  · exact (hpairs second first hsecond hfirst hgt).symm

/-- A run whose bytes are a whole page leaves no room there for another one. -/
theorem not_apart_of_whole {pages : Array Page} {index : Nat} {page : Page} (hpage : pages[index]? = some page)
    {run other : Run} (haddress : run.address = Address.pack index 0) (hwhole : page.toList = run.content)
    (hne : other.content ≠ []) (hlocated : Located pages other.address other.content)
    (hother : Address.page other.address = index) : ¬ run.Apart other := by
  have hlength := List.length_pos_of_ne_nil hne
  have hoccupies : other.Occupies index (Address.offset other.address) := ⟨hother.symm, le_refl _, by omega⟩
  obtain ⟨found, hfound, hlt⟩ := hlocated.lt_size hoccupies
  obtain rfl : page = found := Option.some.inj (hpage.symm.trans hfound)
  have hpos : 0 < Address.offsetBound := by decide
  refine fun hapart => hapart index (Address.offset other.address) ⟨⟨?_, ?_, ?_⟩, hoccupies⟩
  · rw [haddress, Address.page_pack hpos]
  · rw [haddress, Address.offset_pack hpos]
    exact Nat.zero_le _
  · rw [haddress, Address.offset_pack hpos, Nat.zero_add, ← hwhole, Array.length_toList]
    exact hlt

/-- Closing the last page makes a layout of what has been laid. -/
theorem Compressor.Laid.layout {c : Compressor} {written : List Run} (h : c.Laid written)
    (hcontent : ∀ run ∈ written, run.degree ≠ 0 → run.content ≠ []) : Layout c.pageBytes written c.finish := by
  have hclosed := h.closePage
  have hstored : c.closePage.stored = c.finish.push #[] := by
    rw [Compressor.stored, Compressor.current_closePage, Compressor.finish]
  have hlocated : ∀ run ∈ written, run.degree ≠ 0 → Located c.finish run.address run.content := by
    intro run hrun hdegree
    have hne := hcontent run hrun hdegree
    exact keeps_of_push_empty _ _ _ hne (hstored ▸ hclosed.located run hrun hne)
  refine ⟨?_, hclosed.closed_ne_empty, fun run hrun hdegree => ⟨hcontent run hrun hdegree, hlocated run hrun hdegree⟩,
    h.apart, ?_, ?_⟩
  · have hjoined := hclosed.joined
    rw [hstored, Array.toList_push, List.flatMap_append] at hjoined
    simpa using hjoined
  · intro index page hpage
    obtain ⟨hindex, -⟩ := Array.getElem?_eq_some_iff.mp hpage
    have hfound : c.closePage.stored[index]? = some page := by
      rw [hstored, Array.getElem?_push, if_neg (Nat.ne_of_lt hindex)]
      exact hpage
    have hsize := hclosed.page_size index page hfound
    rw [Compressor.pageBytes_closePage] at hsize
    obtain hle | ⟨run, hrun, hlong, haddress, hwhole⟩ := hsize
    · exact .inl hle
    · obtain ⟨number, hnumber⟩ := List.mem_iff_getElem?.mp hrun
      refine .inr ⟨number, run, hnumber, hlong, haddress, hwhole, fun other second hsecond hdegree hsame => ?_⟩
      by_contra hne
      have hmem := List.mem_of_getElem? hsecond
      exact not_apart_of_whole hpage haddress hwhole (hcontent second hmem hdegree) (hlocated second hmem hdegree)
        hsame (apart_of_ne h.apart (Ne.symm hne) hnumber hsecond)
  · intro front hfront run hrun hdegree
    obtain ⟨page, hpage, -⟩ := hlocated run hrun hdegree
    obtain ⟨hindex, -⟩ := Array.getElem?_eq_some_iff.mp hpage
    have hword : (UInt64.ofNat run.address + UInt64.ofNat front.size <<< 32).toNat =
        Address.rebase run.address front.size := Address.toNat_rebase (by omega)
    obtain ⟨hupper, hlower⟩ := Address.halves_of_word hword
    refine ⟨hword, ?_, ?_⟩
    · rw [hupper, Address.page_rebase, Array.getElem?_append_right (Nat.le_add_left _ _), Nat.add_sub_cancel]
    · rw [hlower, Address.offset_rebase]

/-- **Runs fill pages without overlaps and gaps.**  Whatever ascending lists are compressed one after the other
onto pages of at most `2 ^ 32` bytes, every list has a run with its gaps, and the runs and the pages that are
handed out make up a layout. -/
theorem runs_fill_pages {pageBytes : Nat} (hpage : pageBytes ≤ Address.offsetBound) {lists : List (List UInt64)}
    (h : ∀ targets ∈ lists, Varint.Ascends targets) :
    let written := ((Compressor.new pageBytes).compressAll lists).1.toList
    written.map (fun run => (run.gaps, run.degree)) =
        lists.map (fun targets => (Varint.gaps targets, Varint.keptCount targets)) ∧
      Layout pageBytes written ((Compressor.new pageBytes).compressAll lists).2.finish := by
  refine ⟨Compressor.runs_compressAll _ lists, ?_⟩
  have hlaid := Compressor.laid_compressAll hpage h
  have hbytes := Compressor.pageBytes_compressAll (.new pageBytes) lists
  have hlayout := hlaid.layout fun run hrun hdegree => Compressor.content_ne_nil_of_mem h hrun hdegree
  rwa [hbytes] at hlayout

/-- Four runs on pages of four bytes: the first fits, the second begins a page, one has no targets, and the last
is longer than a page. -/
theorem runs_fill_pages_of_four_bytes :
    4 ≤ Address.offsetBound ∧
    (∀ targets ∈ [[1, Varint.absent, 2, 3], [10, 11], [], [100, 200, 300, 400, 500]], Varint.Ascends targets) ∧
    Layout 4
      ((Compressor.new 4).compressAll
        [[1, Varint.absent, 2, 3], [10, 11], [], [100, 200, 300, 400, 500]]).1.toList
      ((Compressor.new 4).compressAll
        [[1, Varint.absent, 2, 3], [10, 11], [], [100, 200, 300, 400, 500]]).2.finish := by
  have hpage : 4 ≤ Address.offsetBound := by decide
  have hlists : ∀ targets ∈ [[1, Varint.absent, 2, 3], [10, 11], [], [100, 200, 300, 400, 500]],
      Varint.Ascends targets := by decide
  exact ⟨hpage, hlists, (runs_fill_pages hpage hlists).2⟩

/-! ## Runs in words -/

namespace Compressor

/-- As long as the degree takes half a word, the words for a run are those of its address and its degree. -/
theorem compressPacked_eq {c : Compressor} (h : c.Sound) {targets : List UInt64} (htargets : Varint.Ascends targets)
    (hdegree : Varint.keptCount targets < 2 ^ 32) :
    c.compressPacked targets = ((c.compress targets).1.packed, (c.compress targets).2) := by
  obtain ⟨hroom, hopen⟩ := h
  by_cases hkept : Varint.keptCount targets = 0
  · rw [compressPacked, compress, hkept]
    rfl
  have hsome : UInt32.ofNat (Varint.keptCount targets) ≠ 0 := by
    intro hzero
    have hcount := UInt32.toNat_ofNat_of_lt' hdegree
    rw [hzero] at hcount
    exact hkept hcount.symm
  have hrequired : 0 < Varint.encodedSizeOf (Varint.gaps targets) := by
    have hle := (Varint.runBytes_bounds htargets).1
    rw [Varint.runBytes] at hle
    omega
  have hstart : (0 : Nat) < Address.offsetBound := by decide
  simp only [compressPacked, compress, if_neg hkept, if_neg hsome]
  split
  case isTrue => rw [Run.packed, Address.word_eq hstart]
  case isFalse =>
    split
    case isTrue => rw [Run.packed, current_closePage, Array.size_empty, Address.word_eq hstart]
    case isFalse hfits => rw [Run.packed, Address.word_eq (by omega)]

theorem compressAllPacked_concat (c : Compressor) (lists : List (List UInt64)) (targets : List UInt64) :
    c.compressAllPacked (lists ++ [targets]) =
      ((c.compressAllPacked lists).1.push ((c.compressAllPacked lists).2.compressPacked targets).1,
        ((c.compressAllPacked lists).2.compressPacked targets).2) := by
  rw [compressAllPacked, List.foldl_append]
  rfl

theorem sound_compressAll {pageBytes : Nat} (hpage : pageBytes ≤ Address.offsetBound) (lists : List (List UInt64)) :
    ((new pageBytes).compressAll lists).2.Sound := by
  induction lists using List.reverseRecOn with
  | nil => exact sound_new hpage
  | append_singleton lists targets ih =>
    rw [compressAll_concat]
    exact sound_compress ih targets

/-- Words are handed out for the runs that are written, onto the same pages. -/
theorem compressAllPacked_eq {pageBytes : Nat} (hpage : pageBytes ≤ Address.offsetBound)
    {lists : List (List UInt64)} (h : ∀ targets ∈ lists, Varint.Ascends targets ∧ Varint.keptCount targets < 2 ^ 32) :
    (new pageBytes).compressAllPacked lists =
      (((new pageBytes).compressAll lists).1.map Run.packed, ((new pageBytes).compressAll lists).2) := by
  induction lists using List.reverseRecOn with
  | nil => simp [compressAllPacked, compressAll]
  | append_singleton lists targets ih =>
    obtain ⟨htargets, hdegree⟩ := h targets (List.mem_append_right _ (List.mem_singleton_self targets))
    rw [compressAllPacked_concat, ih fun other hother => h other (List.mem_append_left _ hother), compressAll_concat,
      compressPacked_eq (sound_compressAll hpage lists) htargets hdegree, Array.map_push]

/-- A run without targets has no address. -/
theorem address_eq_zero {c : Compressor} {lists : List (List UInt64)} {run : Run}
    (hrun : run ∈ (c.compressAll lists).1.toList) (hdegree : run.degree = 0) : run.address = 0 := by
  induction lists using List.reverseRecOn with
  | nil => exact absurd hrun (by simp [compressAll])
  | append_singleton lists targets ih =>
    rw [compressAll_concat, Array.toList_push, List.mem_append, List.mem_singleton] at hrun
    rcases hrun with hrun | rfl
    · exact ih hrun
    · rw [degree_compress] at hdegree
      simp only [compress, if_pos hdegree]

end Compressor

/-- Runs of fewer than `2 ^ 32` targets on no more than `2 ^ 32` pages: the words that are handed out for them are
the addresses and the degrees. -/
theorem words_of_runs {pageBytes : Nat} (hpage : pageBytes ≤ Address.offsetBound) {lists : List (List UInt64)}
    (h : ∀ targets ∈ lists, Varint.Ascends targets ∧ Varint.keptCount targets < 2 ^ 32)
    (hpages : ((Compressor.new pageBytes).compressAll lists).2.finish.size ≤ 2 ^ 32) :
    let packed := (Compressor.new pageBytes).compressAllPacked lists
    packed.2 = ((Compressor.new pageBytes).compressAll lists).2 ∧
      packed.1.toList.map (fun run => (run.address.toNat, run.degree.toNat)) =
        ((Compressor.new pageBytes).compressAll lists).1.toList.map fun run => (run.address, run.degree) := by
  have heq := Compressor.compressAllPacked_eq hpage h
  obtain ⟨hruns, hlayout⟩ := runs_fill_pages hpage fun targets htargets => (h targets htargets).1
  refine ⟨congrArg Prod.snd heq, ?_⟩
  rw [heq, Array.toList_map, List.map_map]
  refine List.map_congr_left fun run hrun => Prod.ext ?_ ?_
  · refine UInt64.toNat_ofNat_of_lt' ?_
    by_cases hdegree : run.degree = 0
    · rw [Compressor.address_eq_zero hrun hdegree]
      decide
    · -- the page of the address is one of the pages that are handed out
      obtain ⟨page, hpage, -⟩ := (hlayout.located run hrun hdegree).2
      obtain ⟨hindex, -⟩ := Array.getElem?_eq_some_iff.mp hpage
      rw [Address.page, Address.offsetBound] at hindex
      change run.address < 2 ^ 64
      omega
  · refine UInt32.toNat_ofNat_of_lt' ?_
    have hmem := List.mem_map_of_mem (f := fun run : Run => (run.gaps, run.degree)) hrun
    rw [hruns] at hmem
    obtain ⟨targets, htargets, hsame⟩ := List.mem_map.mp hmem
    exact (Prod.mk.inj hsame).2 ▸ (h targets htargets).2

end PackedGraph
