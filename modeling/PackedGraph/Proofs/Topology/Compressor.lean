import Mathlib.Data.List.Basic
import Mathlib.Data.List.Induction
import PackedGraph.Proofs.Codec.Gaps
import PackedGraph.Topology.Compressor

/-!
# Runs stay where their addresses say

A compressor that is *sound* keeps its open page below the page size, so that every offset fits into an
address.  One run more leaves all earlier runs where they are and writes its own bytes at the address
that it hands out; closing the last page and putting other pages in front move nothing but the page
numbers.

Main statements: `Compressor.sound_compress`, `Compressor.keeps_compress` and
`Compressor.located_compress` say what one run does, `Compressor.keeps_finish` what closing does,
`Compressor.runs_compressAll` what is handed out for many runs, and `located_rebase` what pages in front do.
-/

namespace PackedGraph

/-! ## Content at an address -/

/-- Some content stands at an address in a list of pages. -/
def Located (pages : Array Page) (address : Nat) (content : List UInt8) : Prop :=
  ∃ page, pages[Address.page address]? = some page ∧
    HoldsAt page (Address.offset address) content

/-- All content of some pages stands at the same addresses in others. -/
def Keeps (old new : Array Page) : Prop :=
  ∀ address content, content ≠ [] → Located old address content → Located new address content

theorem Keeps.refl (pages : Array Page) : Keeps pages pages := fun _ _ _ h => h

theorem Keeps.trans {a b c : Array Page} (hab : Keeps a b) (hbc : Keeps b c) : Keeps a c :=
  fun address content hne h => hbc address content hne (hab address content hne h)

namespace Address

theorem page_pack {page offset : Nat} (h : offset < offsetBound) :
    Address.page (pack page offset) = page := by
  rw [pack, Address.page, Nat.add_comm, Nat.add_mul_div_right _ _ (by decide),
    Nat.div_eq_of_lt h, Nat.zero_add]

theorem offset_pack {page offset : Nat} (h : offset < offsetBound) :
    Address.offset (pack page offset) = offset := by
  rw [pack, Address.offset, Nat.add_comm, Nat.add_mul_mod_self_right, Nat.mod_eq_of_lt h]

theorem page_rebase (address pages : Nat) :
    Address.page (rebase address pages) = Address.page address + pages := by
  rw [rebase, Address.page, Address.page, Nat.add_mul_div_right _ _ (by decide)]

theorem offset_rebase (address pages : Nat) :
    Address.offset (rebase address pages) = Address.offset address := by
  rw [rebase, Address.offset, Address.offset, Nat.add_mul_mod_self_right]

end Address

/-- Pages behind others keep their content, the page numbers counting the pages in front. -/
theorem located_rebase {pages : Array Page} {address : Nat} {content : List UInt8}
    (front : Array Page) (h : Located pages address content) :
    Located (front ++ pages) (Address.rebase address front.size) content := by
  obtain ⟨page, hpage, hholds⟩ := h
  refine ⟨page, ?_, by rwa [Address.offset_rebase]⟩
  rw [Address.page_rebase, Array.getElem?_append_right (Nat.le_add_left _ _), Nat.add_sub_cancel]
  exact hpage

/-- Pages in front of others keep their content. -/
theorem keeps_append (pages back : Array Page) : Keeps pages (pages ++ back) := by
  rintro address content - ⟨page, hpage, hholds⟩
  obtain ⟨hlt, -⟩ := Array.getElem?_eq_some_iff.mp hpage
  exact ⟨page, by rw [Array.getElem?_append_left hlt]; exact hpage, hholds⟩

theorem keeps_push (pages : Array Page) (page : Page) : Keeps pages (pages.push page) := by
  rw [Array.push_eq_append]
  exact keeps_append pages #[page]

/-- The last page may grow. -/
theorem keeps_grow (pages : Array Page) (page : Page) (more : List UInt8) :
    Keeps (pages.push page) (pages.push (page ++ more)) := by
  rintro address content hne ⟨found, hfound, hholds⟩
  rw [Array.getElem?_push] at hfound
  by_cases heq : Address.page address = pages.size
  · rw [if_pos heq, Option.some.injEq] at hfound
    subst hfound
    exact ⟨page ++ more, by rw [Array.getElem?_push, if_pos heq], holdsAt_push hholds hne more⟩
  · rw [if_neg heq] at hfound
    exact ⟨found, by rw [Array.getElem?_push, if_neg heq]; exact hfound, hholds⟩

/-- An empty last page holds nothing. -/
theorem keeps_of_push_empty (pages : Array Page) : Keeps (pages.push #[]) pages := by
  rintro address content hne ⟨found, hfound, hholds⟩
  rw [Array.getElem?_push] at hfound
  by_cases heq : Address.page address = pages.size
  · rw [if_pos heq, Option.some.injEq] at hfound
    subst hfound
    obtain ⟨rest, hrest⟩ := hholds
    simp only [List.drop_nil, List.append_eq_nil_iff] at hrest
    exact absurd hrest.1 hne
  · rw [if_neg heq] at hfound
    exact ⟨found, hfound, hholds⟩

/-- What is written behind a page is found at the offset where that page ended. -/
theorem located_push (pages : Array Page) (page : Page) (content : List UInt8)
    (h : page.size < Address.offsetBound) :
    Located (pages.push (page ++ content)) (Address.pack pages.size page.size) content := by
  refine ⟨page ++ content, ?_, ?_⟩
  · rw [Address.page_pack h, Array.getElem?_push, if_pos rfl]
  · rw [Address.offset_pack h]
    exact holdsAt_end page content

namespace Compressor

/-- The open page keeps to the page size, and every offset in it fits into an address. -/
structure Sound (c : Compressor) : Prop where
  /-- No page size exceeds the offsets that an address can hold. -/
  room : c.pageBytes ≤ Address.offsetBound
  /-- The open page is no longer than a page may be. -/
  open_le : c.current.size ≤ c.pageBytes

/-- All pages, the open one last. -/
def stored (c : Compressor) : Array Page := c.pages.push c.current

theorem sound_new {pageBytes : Nat} (h : pageBytes ≤ Address.offsetBound) : (new pageBytes).Sound :=
  ⟨h, Nat.zero_le _⟩

@[simp] theorem pageBytes_closePage (c : Compressor) : c.closePage.pageBytes = c.pageBytes := by
  unfold closePage
  split <;> rfl

@[simp] theorem current_closePage (c : Compressor) : c.closePage.current = #[] := by
  unfold closePage
  split
  case isTrue h => exact Array.isEmpty_iff.mp h
  case isFalse => rfl

/-- Closing a page moves nothing. -/
theorem keeps_closePage (c : Compressor) : Keeps c.stored c.closePage.pages := by
  unfold stored closePage
  split
  case isTrue h =>
    rw [Array.isEmpty_iff.mp h]
    exact keeps_of_push_empty c.pages
  case isFalse => exact Keeps.refl _

/-- Handing out the pages moves nothing. -/
theorem keeps_finish (c : Compressor) : Keeps c.stored c.finish := c.keeps_closePage

/-- The compressor after some runs. -/
def writeAll (c : Compressor) (runs : List (List UInt64)) : Compressor :=
  runs.foldl (fun c targets => (c.compress targets).2) c

theorem writeAll_concat (c : Compressor) (runs : List (List UInt64)) (run : List UInt64) :
    c.writeAll (runs ++ [run]) = ((c.writeAll runs).compress run).2 := by
  rw [writeAll, List.foldl_append]
  rfl

/-- One list more: its run comes behind the others. -/
theorem compressAll_concat (c : Compressor) (lists : List (List UInt64)) (targets : List UInt64) :
    c.compressAll (lists ++ [targets]) =
      ((c.compressAll lists).1.push ((c.compressAll lists).2.compress targets).1,
        ((c.compressAll lists).2.compress targets).2) := by
  rw [compressAll, List.foldl_append]
  rfl

/-! ## One run more -/

/-- The number of targets that a run keeps is its degree. -/
theorem degree_compress (c : Compressor) (targets : List UInt64) :
    (c.compress targets).1.degree = Varint.keptCount targets := by
  simp only [compress]
  split
  case isTrue h => exact h.symm
  case isFalse => split <;> rfl

/-- What is handed out for targets has their gaps. -/
theorem gaps_compress (c : Compressor) (targets : List UInt64) :
    (c.compress targets).1.gaps = Varint.gaps targets := by
  simp only [compress]
  split
  case isTrue => rfl
  case isFalse => split <;> rfl

/-- Every list has a run with its gaps and as many targets as it has words. -/
theorem runs_compressAll (c : Compressor) (lists : List (List UInt64)) :
    (c.compressAll lists).1.toList.map (fun run => (run.gaps, run.degree)) =
      lists.map fun targets => (Varint.gaps targets, Varint.keptCount targets) := by
  induction lists using List.reverseRecOn with
  | nil => rfl
  | append_singleton lists targets ih =>
    rw [compressAll_concat, Array.toList_push, List.map_append, List.map_append, ih, List.map_singleton,
      List.map_singleton, gaps_compress, degree_compress]

theorem sound_compress {c : Compressor} (h : c.Sound) (targets : List UInt64) :
    (c.compress targets).2.Sound := by
  obtain ⟨hroom, hopen⟩ := h
  simp only [compress, Varint.encodedSizeOf_eq, Varint.encodeValues_eq]
  split
  case isTrue => exact ⟨hroom, hopen⟩
  case isFalse =>
    split
    case isTrue => exact ⟨by simpa using hroom, by simp⟩
    case isFalse hsize =>
      split
      case isTrue => exact ⟨by simpa using hroom, by simpa using hsize⟩
      case isFalse hfits =>
        refine ⟨hroom, ?_⟩
        rw [← Array.length_toList, Array.toList_appendList, List.length_append, Array.length_toList]
        exact not_lt.mp hfits

/-- A run more leaves the earlier ones where they are. -/
theorem keeps_compress (c : Compressor) (targets : List UInt64) :
    Keeps c.stored (c.compress targets).2.stored := by
  simp only [compress, Varint.encodeValues_eq]
  have hclosed : ∀ page : Page, Keeps c.stored (c.closePage.pages.push page) :=
    fun page => c.keeps_closePage.trans (keeps_push _ page)
  split
  case isTrue => exact Keeps.refl _
  case isFalse =>
    split
    case isTrue => exact (hclosed _).trans (keeps_push _ _)
    case isFalse =>
      split
      case isTrue => exact hclosed _
      case isFalse => exact keeps_grow _ _ _

/-- The bytes of a run stand at the address that is handed out for it. -/
theorem located_compress {c : Compressor} (h : c.Sound) {targets : List UInt64}
    (hkept : Varint.keptCount targets ≠ 0) (hbytes : Varint.wordBytes (Varint.gaps targets) ≠ []) :
    Located (c.compress targets).2.stored (c.compress targets).1.address
      (Varint.wordBytes (Varint.gaps targets)) := by
  obtain ⟨hroom, hopen⟩ := h
  have hlength := List.length_pos_of_ne_nil hbytes
  simp only [compress, if_neg hkept, Varint.encodedSizeOf_eq, Varint.encodeValues_eq]
  split
  case isTrue =>
    -- a run that is longer than a page gets a page of its own, in front of the open one
    have hpage := located_push c.closePage.pages #[] (Varint.wordBytes (Varint.gaps targets)) (by decide)
    exact keeps_push _ _ _ _ hbytes hpage
  case isFalse hsize =>
    have hpos : 0 < Address.offsetBound := by decide
    split
    case isTrue =>
      refine located_push _ _ _ ?_
      simpa using hpos
    case isFalse hfits => exact located_push _ _ _ (by omega)

end Compressor

end PackedGraph
