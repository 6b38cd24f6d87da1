/-!
# Lines and fields

White space, and the two ways in which text is cut: into lines at line feeds and into fields at
separators.

Main definitions: `isBlank` is the Unicode property *White_Space*; `pieces` cuts at every separator
and keeps empty pieces, `fields` keeps the others only.
-/

namespace PackedGraph

/-- White space outside the control characters and the space: the no-break space, the spaces of
various widths and the line and paragraph separators. -/
def wideBlanks : List Nat :=
  [0x85, 0xA0, 0x1680, 0x2000, 0x2001, 0x2002, 0x2003, 0x2004, 0x2005, 0x2006, 0x2007, 0x2008,
    0x2009, 0x200A, 0x2028, 0x2029, 0x202F, 0x205F, 0x3000]

/-- The characters with the Unicode property *White_Space*. -/
def isBlank (c : Char) : Bool :=
  c == ' ' || (decide (9 ≤ c.toNat) && decide (c.toNat ≤ 13)) || wideBlanks.contains c.toNat

/-- Cut at every separator: between two neighbouring ones lies an empty piece. -/
def pieces (isSeparator : Char → Bool) (text : List Char) : List (List Char) :=
  text.foldr
    (fun c rest =>
      if isSeparator c then [] :: rest
      else match rest with
        | first :: others => (c :: first) :: others
        | [] => [[c]])
    [[]]

/-- The non-empty pieces between separators. -/
def fields (isSeparator : Char → Bool) (text : List Char) : List (List Char) :=
  (pieces isSeparator text).filter (fun piece => !piece.isEmpty)

/-- The text without the white space at its two ends. -/
def trim (text : List Char) : List Char :=
  ((text.dropWhile isBlank).reverse.dropWhile isBlank).reverse

end PackedGraph
