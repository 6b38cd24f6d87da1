import Mathlib.Data.Nat.Basic
import PackedGraph.Storage.Paged

/-!
# A paged array reads as the flat one

A paged array that is cut from a flat one has the same element at every index, and none past the end.
-/

namespace PackedGraph.Paged

variable {α : Type}

theorem pageSize_pos : 0 < pageSize := by decide

/-- An index below the length lies on one of the pages. -/
theorem div_lt_pageCount {size index : Nat} (h : index < size) :
    index / pageSize < pageCount size := by
  rw [pageCount, ceilDiv, Nat.div_lt_iff_lt_mul pageSize_pos]
  have := Nat.div_add_mod (size + pageSize - 1) pageSize
  have := Nat.mod_lt (size + pageSize - 1) pageSize_pos
  have := Nat.mul_comm pageSize ((size + pageSize - 1) / pageSize)
  omega

/-- An index past the end lies behind all pages or behind the end of the last one. -/
theorem pageLength_le_mod {size index : Nat} (h : size ≤ index) :
    pageLength size (index / pageSize) ≤ index % pageSize := by
  have := Nat.div_add_mod' index pageSize
  rw [pageLength]
  omega

/-- A paged array reads as the flat array it is cut from. -/
theorem get?_ofArray (values : Array α) (index : Nat) :
    (ofArray values).get? index = values[index]? := by
  have hmod : index / pageSize * pageSize + index % pageSize = index := Nat.div_add_mod' _ _
  have hlt : index % pageSize < pageSize := Nat.mod_lt _ pageSize_pos
  rw [get?, ofArray]
  by_cases hindex : index < values.size
  · have hpage := div_lt_pageCount hindex
    simp only [Array.getElem?_map, Array.getElem?_range, if_pos hpage, Option.map_some]
    rw [Array.getElem?_extract, if_pos, hmod]
    rw [pageLength]
    omega
  · rw [Array.getElem?_eq_none (not_lt.mp hindex)]
    have hlength := pageLength_le_mod (not_lt.mp hindex)
    by_cases hpage : index / pageSize < pageCount values.size
    · simp only [Array.getElem?_map, Array.getElem?_range, if_pos hpage, Option.map_some]
      rw [Array.getElem?_extract, if_neg]
      omega
    · rw [Array.getElem?_eq_none (by simpa using hpage)]

@[simp] theorem size_ofArray (values : Array α) : (ofArray values).size = values.size := rfl

theorem getD_ofArray (values : Array α) (index : Nat) (default : α) :
    (ofArray values).getD index default = values[index]?.getD default := by
  rw [getD, get?_ofArray]

/-- The indices that are covered are those below the length. -/
theorem covers_ofArray (values : Array α) (index : Nat) :
    (ofArray values).covers index = decide (index < values.size) := by
  rw [covers, get?_ofArray]
  by_cases h : index < values.size <;> simp [h]

end PackedGraph.Paged
