import Mathlib.Data.List.TakeDrop
import PackedGraph.Proofs.Storage.Paged

/-!
# Cutting into pages goes together with everything else

A flat array that is cut into pages and then changed is the flat array that is changed and then cut.  So
whatever is done to the pages has been done to the flat array, and no index is mixed up with another, at the
ends of pages no more than in the middle of them.

Main statements: `modify_ofArray`, `fill_ofArray`, `map_ofArray` and `toList_ofArray`.
-/

namespace PackedGraph.Paged

variable {α β : Type}

/-! ## Pages of a flat array -/

/-- A page of a flat array has the elements from its first index on. -/
theorem getElem?_page (xs : Array α) (page offset : Nat) :
    (xs.extract (page * pageSize) (page * pageSize + pageLength xs.size page))[offset]? =
      if offset < pageLength xs.size page then xs[page * pageSize + offset]? else none := by
  rw [Array.getElem?_extract]
  refine if_congr ?_ rfl rfl
  rw [pageLength]
  omega

theorem pages_ofArray (xs : Array α) :
    (ofArray xs).pages = (Array.range (pageCount xs.size)).map fun page =>
      xs.extract (page * pageSize) (page * pageSize + pageLength xs.size page) := rfl

theorem getElem?_pages_ofArray (xs : Array α) (page : Nat) :
    (ofArray xs).pages[page]? = if page < pageCount xs.size then
      some (xs.extract (page * pageSize) (page * pageSize + pageLength xs.size page)) else none := by
  rw [pages_ofArray, Array.getElem?_map, Array.getElem?_range]
  split <;> rfl

/-! ## Operations -/

theorem ofFn_eq (size : Nat) (f : Nat → α) : ofFn size f = ofArray ((Array.range size).map f) := by
  rw [ofFn, ofArray, Array.size_map, Array.size_range]
  congr 2
  funext page
  refine Array.ext_getElem? fun offset => ?_
  have hpage := getElem?_page ((Array.range size).map f) page offset
  rw [Array.size_map, Array.size_range] at hpage
  rw [hpage, Array.getElem?_map, Array.getElem?_range, Array.getElem?_map, Array.getElem?_range]
  by_cases hoffset : offset < pageLength size page
  · rw [if_pos hoffset, if_pos hoffset, if_pos (by rw [pageLength] at hoffset; omega)]
    rfl
  · rw [if_neg hoffset, if_neg hoffset]
    rfl

theorem replicate_eq (size : Nat) (value : α) : replicate size value = ofArray (Array.replicate size value) := by
  rw [replicate, ofArray, Array.size_replicate]
  congr 2
  funext page
  rw [Array.extract_replicate]
  congr 1
  rw [pageLength]
  omega

/-- An index lies on its own page at its own place, and nowhere else. -/
theorem index_eq_iff {index page offset : Nat} (h : offset < pageSize) :
    index = page * pageSize + offset ↔ index / pageSize = page ∧ index % pageSize = offset := by
  have := Nat.div_add_mod' index pageSize
  constructor
  · rintro rfl
    rw [Nat.mul_comm, Nat.mul_add_div pageSize_pos, Nat.mul_add_mod, Nat.div_eq_of_lt h, Nat.mod_eq_of_lt h]
    exact ⟨rfl, rfl⟩
  · rintro ⟨rfl, rfl⟩
    omega

/-- Changing one element of the pages changes the same element of the flat array. -/
@[simp] theorem modify_ofArray (xs : Array α) (index : Nat) (f : α → α) :
    (ofArray xs).modify index f = ofArray (xs.modify index f) := by
  have hpages : (ofArray xs).pages.modify (index / pageSize) (fun page => page.modify (index % pageSize) f) =
      (ofArray (xs.modify index f)).pages := by
    refine Array.ext_getElem? fun page => ?_
    rw [Array.getElem?_modify, getElem?_pages_ofArray, getElem?_pages_ofArray, Array.size_modify]
    by_cases hpage : page < pageCount xs.size
    · rw [if_pos hpage, if_pos hpage, Option.map_some, ← apply_ite some]
      refine congrArg some (Array.ext_getElem? fun offset => ?_)
      have hright := getElem?_page (xs.modify index f) page offset
      rw [Array.size_modify] at hright
      rw [hright, apply_ite (fun page : Array α => page[offset]?), Array.getElem?_modify, getElem?_page,
        Array.getElem?_modify]
      by_cases hoffset : offset < pageLength xs.size page
      · have hlt : offset < pageSize := by rw [pageLength] at hoffset; omega
        rw [if_pos hoffset, if_pos hoffset]
        simp only [index_eq_iff hlt]
        split_ifs <;> tauto
      · rw [if_neg hoffset, if_neg hoffset]
        split_ifs <;> rfl
    · rw [if_neg hpage, if_neg hpage]
      split_ifs <;> rfl
  rw [modify, hpages, ofArray, ofArray, Array.size_modify]

/-- Changing an element is putting there what it is changed to. -/
theorem modify_eq_setIfInBounds {xs : Array α} {index : Nat} {f : α → α} {value : α}
    (h : ∀ x, xs[index]? = some x → f x = value) : xs.modify index f = xs.setIfInBounds index value := by
  refine Array.ext_getElem? fun other => ?_
  rw [Array.getElem?_modify, Array.getElem?_setIfInBounds]
  split
  case isTrue heq =>
    subst heq
    cases hx : xs[index]? with
    | none => rw [Option.map_none, if_neg (not_lt.mpr (Array.getElem?_eq_none_iff.mp hx))]
    | some x => rw [Option.map_some, h x hx, if_pos (Array.getElem?_eq_some_iff.mp hx).1]
  case isFalse => rfl

@[simp] theorem put_ofArray (xs : Array α) (index : Nat) (value : α) :
    (ofArray xs).put index value = ofArray (xs.setIfInBounds index value) := by
  rw [put, modify_ofArray, modify_eq_setIfInBounds fun _ _ => rfl]

@[simp] theorem fill_ofArray (xs : Array α) (value : α) :
    (ofArray xs).fill value = ofArray (Array.replicate xs.size value) := by
  rw [← replicate_eq, fill, pages_ofArray, Array.map_map, replicate]
  congr 2
  funext page
  rw [Function.comp_apply, Array.size_extract]
  congr 1
  rw [pageLength]
  omega

@[simp] theorem map_ofArray (f : α → β) (xs : Array α) : (ofArray xs).map f = ofArray (xs.map f) := by
  rw [map, pages_ofArray, Array.map_map, size_ofArray, ofArray, Array.size_map]
  congr 2
  funext page
  rw [Function.comp_apply, Array.map_extract]

/-- The pages one after the other are the flat array. -/
@[simp] theorem toList_ofArray (xs : Array α) : (ofArray xs).toList = xs.toList := by
  -- the first so many pages hold what stands in front of the next one
  have hfront : ∀ count, (List.range count).flatMap (fun page =>
      (xs.extract (page * pageSize) (page * pageSize + pageLength xs.size page)).toList) =
        xs.toList.take (count * pageSize) := by
    intro count
    induction count with
    | zero => simp
    | succ count ih =>
      rw [List.range_succ, List.flatMap_append, ih, List.flatMap_singleton, Nat.succ_mul, List.take_add,
        Array.toList_extract, List.extract_eq_take_drop, Nat.add_sub_cancel_left]
      congr 1
      rw [List.take_eq_take_iff, List.length_drop, Array.length_toList, pageLength]
      omega
  rw [toList, pages_ofArray, Array.toList_map, Array.toList_range, List.flatMap_map, hfront,
    List.take_of_length_le]
  rw [Array.length_toList, pageCount, ceilDiv]
  have := Nat.div_add_mod' (xs.size + pageSize - 1) pageSize
  have := Nat.mod_lt (xs.size + pageSize - 1) pageSize_pos
  omega

/-! ## Making an array -/

theorem ofFn_congr {size : Nat} {f g : Nat → α} (h : ∀ index < size, f index = g index) :
    ofFn size f = ofFn size g := by
  rw [ofFn_eq, ofFn_eq]
  refine congrArg ofArray (Array.ext_getElem? fun index => ?_)
  rw [Array.getElem?_map, Array.getElem?_map, Array.getElem?_range]
  split
  case isTrue hindex => rw [Option.map_some, Option.map_some, h index hindex]
  case isFalse => rfl

/-- Giving the first so many elements their values leaves the others as they are. -/
theorem foldl_put_range (size count : Nat) (value : α) (f : Nat → α) :
    (List.range count).foldl (fun a index => a.put index (f index)) (replicate size value) =
      ofFn size fun index => if index < count then f index else value := by
  induction count with
  | zero =>
    rw [List.range_zero, List.foldl_nil, replicate_eq, ofFn_eq]
    refine congrArg ofArray (Array.ext_getElem? fun index => ?_)
    rw [Array.getElem?_replicate, Array.getElem?_map, Array.getElem?_range]
    split <;> rfl
  | succ count ih =>
    rw [List.range_succ, List.foldl_append, ih, List.foldl_cons, List.foldl_nil, ofFn_eq, put_ofArray, ofFn_eq]
    refine congrArg ofArray (Array.ext_getElem? fun index => ?_)
    rw [Array.getElem?_setIfInBounds, Array.getElem?_map, Array.getElem?_map, Array.getElem?_range,
      Array.size_map, Array.size_range]
    by_cases heq : count = index
    · subst heq
      rw [if_pos rfl]
      split
      · rw [Option.map_some, if_pos (Nat.lt_succ_self count)]
      · rfl
    · rw [if_neg heq]
      split
      · rw [Option.map_some, Option.map_some]
        exact congrArg some (if_congr (by omega) rfl rfl)
      · rfl

/-- An array is made of a function by giving every element its value. -/
theorem foldl_put (size : Nat) (value : α) (f : Nat → α) :
    (List.range size).foldl (fun a index => a.put index (f index)) (replicate size value) = ofFn size f := by
  rw [foldl_put_range]
  exact ofFn_congr fun index hindex => if_pos hindex

/-- A word splits into page and offset by a shift and a mask. -/
theorem get?_word (a : Paged α) (index : UInt64) :
    a.get? index.toNat =
      (a.pages[(index >>> 14).toNat]?).bind fun page => page[(index &&& 16383).toNat]? := by
  have hpage : (index >>> 14).toNat = index.toNat / pageSize := by
    rw [UInt64.toNat_shiftRight, Nat.shiftRight_eq_div_pow]
    rfl
  have hoffset : (index &&& 16383).toNat = index.toNat % pageSize := by
    rw [UInt64.toNat_and]
    exact Nat.and_two_pow_sub_one_eq_mod index.toNat 14
  rw [get?, hpage, hoffset]
  cases a.pages[index.toNat / pageSize]? <;> rfl

end PackedGraph.Paged
