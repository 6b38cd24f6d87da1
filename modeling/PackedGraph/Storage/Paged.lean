import PackedGraph.Numeric.Binary64

/-!
# Paged arrays

A sequence of fixed length, cut into pages of `pageSize` elements of which only the last may be
shorter, so that no single allocation holds the whole sequence.  An index splits into a page number
and an offset by division.

The view of a paged array is `toList`; `get?` reads one element of it, and every operation at an index
past the end is refused and leaves the array as it was.
-/

namespace PackedGraph

/-- Elements of a full page. -/
def pageSize : Nat := 16384

/-- How many pages hold a sequence of a given length. -/
def pageCount (size : Nat) : Nat := ceilDiv size pageSize

/-- How many elements lie on a page of a sequence of a given length. -/
def pageLength (size page : Nat) : Nat := min (size - page * pageSize) pageSize

/-- A sequence in pages. -/
structure Paged (α : Type) where
  /-- The pages in order. -/
  pages : Array (Array α)
  /-- The number of elements. -/
  size : Nat
  deriving Inhabited

namespace Paged

variable {α β : Type}

/-- The sequence whose element at an index is a function of the index. -/
def ofFn (size : Nat) (f : Nat → α) : Paged α :=
  { pages := (Array.range (pageCount size)).map fun page =>
      (Array.range (pageLength size page)).map fun offset => f (page * pageSize + offset)
    size := size }

/-- The same element throughout. -/
def replicate (size : Nat) (value : α) : Paged α :=
  { pages := (Array.range (pageCount size)).map fun page =>
      Array.replicate (pageLength size page) value
    size := size }

/-- The elements of a flat array. -/
def ofArray (values : Array α) : Paged α :=
  { pages := (Array.range (pageCount values.size)).map fun page =>
      values.extract (page * pageSize) (page * pageSize + pageLength values.size page)
    size := values.size }

/-- The elements of a list. -/
def ofList (values : List α) : Paged α := ofArray values.toArray

/-- All elements in index order. -/
def toList (a : Paged α) : List α := a.pages.toList.flatMap Array.toList

/-- The element at an index. -/
def get? (a : Paged α) (index : Nat) : Option α :=
  match a.pages[index / pageSize]? with
  | some page => page[index % pageSize]?
  | none => none

/-- The element at an index, or a default past the end. -/
def getD (a : Paged α) (index : Nat) (default : α) : α := (a.get? index).getD default

/-- Whether there is an element at an index. -/
def covers (a : Paged α) (index : Nat) : Bool := (a.get? index).isSome

/-- Change the element at an index; nothing happens past the end. -/
def modify (a : Paged α) (index : Nat) (f : α → α) : Paged α :=
  { a with pages := a.pages.modify (index / pageSize) fun page => page.modify (index % pageSize) f }

/-- Replace the element at an index; nothing happens past the end. -/
def put (a : Paged α) (index : Nat) (value : α) : Paged α := a.modify index fun _ => value

/-- Replace the element at an index, refused past the end. -/
def set? (a : Paged α) (index : Nat) (value : α) : Option (Paged α) :=
  if a.covers index then some (a.put index value) else none

/-- Change the element at an index, refused past the end. -/
def update? (a : Paged α) (index : Nat) (f : α → α) : Option (Paged α) :=
  if a.covers index then some (a.modify index f) else none

/-- The same element throughout, in place of all others. -/
def fill (a : Paged α) (value : α) : Paged α :=
  { a with pages := a.pages.map fun page => Array.replicate page.size value }

/-- Another sequence of the same length, element by element. -/
def map (f : α → β) (a : Paged α) : Paged β :=
  { pages := a.pages.map (Array.map f), size := a.size }

/-! ## Words under concurrent change

Each of these is one indivisible step on one element, so a run of several workers is some sequence of
them. -/

/-- Add to a word, modulo `2 ^ 64`; the word before. -/
def getAndAdd? (a : Paged UInt64) (index : Nat) (delta : UInt64) : Option (UInt64 × Paged UInt64) :=
  (a.get? index).map fun old => (old, a.put index (old + delta))

/-- Replace a word if it is the expected one; the word before. -/
def compareAndExchange? (a : Paged UInt64) (index : Nat) (expected new : UInt64) :
    Option (UInt64 × Paged UInt64) :=
  (a.get? index).map fun old => (old, if old = expected then a.put index new else a)

/-- Replace a word if it is the expected one; whether it was. -/
def compareAndSet? (a : Paged UInt64) (index : Nat) (expected new : UInt64) :
    Option (Bool × Paged UInt64) :=
  (a.compareAndExchange? index expected new).map fun (old, a) => (decide (old = expected), a)

/-- Change a word; the word afterwards. -/
def getUpdated? (a : Paged UInt64) (index : Nat) (f : UInt64 → UInt64) :
    Option (UInt64 × Paged UInt64) :=
  (a.get? index).map fun old => (f old, a.put index (f old))

/-- Go on trying to change a word that was `current` when it was last read: compute, and exchange the word
if it is still the same.  A try may fail although it is, and then the word is read again; so many fail
before one does not. -/
def tryUpdate? (a : Paged UInt64) (index : Nat) (f : UInt64 → UInt64) (current : UInt64) :
    Nat → Option (UInt64 × Paged UInt64)
  | 0 => (a.compareAndExchange? index current (f current)).bind fun (witness, next) =>
    if witness = current then some (f current, next) else none
  | failures + 1 => (a.get? index).bind fun witness => a.tryUpdate? index f witness failures

/-- Change a word by trying, which fails so many times; the word afterwards. -/
def updateByTrying? (a : Paged UInt64) (index : Nat) (f : UInt64 → UInt64) (failures : Nat) :
    Option (UInt64 × Paged UInt64) :=
  (a.get? index).bind fun current => a.tryUpdate? index f current failures

/-- Add to a number that is kept as its bits; the bits before. -/
def addTo? (a : Paged Binary64) (index : Nat) (delta : Float) : Option (Binary64 × Paged Binary64) :=
  (a.get? index).map fun old => (old, a.put index (.ofFloat (old.toFloat + delta)))

/-! ## Freezing -/

/-- The words of an array that nobody changes any more, taken over page by page. -/
def frozen (a : Paged UInt64) : Paged UInt64 := a.map fun word => word

/-- The numbers whose bits the words of an array are. -/
def frozenNumbers (a : Paged UInt64) : Paged Binary64 := a.frozen.map Binary64.mk

/-- The bits of the numbers in an array. -/
def bits (a : Paged Binary64) : Paged UInt64 := a.map Binary64.bits

/-! ## Bytes -/

/-- The bytes of one entry in a table of pages: where the page is and how long. -/
def tableEntry : Nat := 16

/-- The bytes of a sequence: its elements and its table of pages. -/
def bytes (elementBytes size : Nat) : Nat := size * elementBytes + pageCount size * tableEntry

end Paged

end PackedGraph
