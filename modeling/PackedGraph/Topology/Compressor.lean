import PackedGraph.Codec.Gaps

/-!
# Packing runs into pages

The ascending targets of a node are one *run*: the bytes of their gaps.  Runs are packed one behind
the other into pages of bytes and none lies on two pages: a run that does not fit into the open page
closes it, and a run that is longer than a page gets a page of its own.

A run is found again by its address, a page number and an offset in one word.  Pages of several
compressors are put behind each other by `rebase`, which moves an address by so many pages.

Addresses and degrees are natural numbers here.  What is handed out are words (`compressPacked`); they are
the same numbers as long as the page numbers and the degrees fit into half a word.
-/

namespace PackedGraph

/-- A page of bytes. -/
abbrev Page := Array UInt8

/-- The usual size of a page, in bytes. -/
def bytesPerPage : Nat := 262144

namespace Address

/-- Offsets lie below this bound. -/
def offsetBound : Nat := 4294967296

/-- The address of an offset in a page. -/
def pack (page offset : Nat) : Nat := page * offsetBound + offset

/-- The page of an address. -/
def page (address : Nat) : Nat := address / offsetBound

/-- The offset of an address. -/
def offset (address : Nat) : Nat := address % offsetBound

/-- The same place when so many pages are put in front. -/
def rebase (address pages : Nat) : Nat := address + pages * offsetBound

end Address

/-- Where a run lies, how many targets it has, and what was written. -/
structure Run where
  /-- The packed address of its first byte; zero for a run without targets. -/
  address : Nat
  /-- The number of targets. -/
  degree : Nat
  /-- The gaps, with the places that hold no word. -/
  gaps : List UInt64
  deriving Repr, Inhabited

/-- Pages under construction. -/
structure Compressor where
  /-- The closed pages. -/
  pages : Array Page
  /-- The open page. -/
  current : Page
  /-- The size that no page exceeds except to hold a single run. -/
  pageBytes : Nat
  deriving Inhabited

namespace Compressor

/-- No pages yet. -/
def new (pageBytes : Nat) : Compressor := ⟨#[], #[], pageBytes⟩

/-- Close the open page, if it holds anything. -/
def closePage (c : Compressor) : Compressor :=
  if c.current.isEmpty then c
  else { c with pages := c.pages.push c.current, current := #[] }

/-- Write a run of ascending targets.  Places that hold no word are passed over. -/
def compress (c : Compressor) (targets : List UInt64) : Run × Compressor :=
  let gaps := Varint.gaps targets
  let degree := Varint.keptCount targets
  if degree = 0 then (⟨0, 0, gaps⟩, c)
  else
    let required := Varint.encodedSizeOf gaps
    if c.pageBytes < required then
      let c := c.closePage
      (⟨Address.pack c.pages.size 0, degree, gaps⟩,
        { c with pages := c.pages.push (Varint.encodeValues #[] gaps) })
    else
      let c := if c.pageBytes < c.current.size + required then c.closePage else c
      (⟨Address.pack c.pages.size c.current.size, degree, gaps⟩,
        { c with current := Varint.encodeValues c.current gaps })

/-- All pages in address order. -/
def finish (c : Compressor) : Array Page := c.closePage.pages

/-- Write runs one after the other. -/
def compressAll (c : Compressor) (lists : List (List UInt64)) : Array Run × Compressor :=
  lists.foldl
    (fun (runs, c) targets =>
      let (run, c) := c.compress targets
      (runs.push run, c))
    (#[], c)

end Compressor

/-! ## In words -/

/-- The address of an offset in a page as a word: the page is shifted to the upper half. -/
def Address.word (page offset : Nat) : UInt64 := UInt64.ofNat page <<< 32 ||| UInt64.ofNat offset

/-- Where a run lies and how many targets it has, in words. -/
structure PackedRun where
  /-- The address of its first byte. -/
  address : UInt64
  /-- The number of targets. -/
  degree : UInt32
  deriving Repr, DecidableEq, Inhabited

/-- The words for a run. -/
def Run.packed (run : Run) : PackedRun := ⟨UInt64.ofNat run.address, UInt32.ofNat run.degree⟩

namespace Compressor

/-- Write a run of ascending targets and hand out words for it. -/
def compressPacked (c : Compressor) (targets : List UInt64) : PackedRun × Compressor :=
  let gaps := Varint.gaps targets
  let degree := UInt32.ofNat (Varint.keptCount targets)
  if degree = 0 then (⟨0, 0⟩, c)
  else
    let required := Varint.encodedSizeOf gaps
    if c.pageBytes < required then
      let c := c.closePage
      (⟨Address.word c.pages.size 0, degree⟩,
        { c with pages := c.pages.push (Varint.encodeValues #[] gaps) })
    else
      let c := if c.pageBytes < c.current.size + required then c.closePage else c
      (⟨Address.word c.pages.size c.current.size, degree⟩,
        { c with current := Varint.encodeValues c.current gaps })

/-- Write runs one after the other and hand out words for them. -/
def compressAllPacked (c : Compressor) (lists : List (List UInt64)) : Array PackedRun × Compressor :=
  lists.foldl
    (fun (runs, c) targets =>
      let (run, c) := c.compressPacked targets
      (runs.push run, c))
    (#[], c)

end Compressor

end PackedGraph
