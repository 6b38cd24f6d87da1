import PackedGraph.Analysis.Pointers
import PackedGraph.Proofs.Analysis.DisjointSets
import PackedGraph.Proofs.Storage.Requests

/-!
# The loops over words end

Numbers below a size that is itself a word can be told from each other as words.  So the loops over an array of
words do what finding and uniting do to disjoint sets.  A number on the way to a root is larger than those behind
it: as many turns as there are numbers are enough for every way.

Main statements: `Pointers.find?_words`, `Pointers.union?_words` and `Pointers.sameSet?_words`.
-/

namespace PackedGraph

namespace DisjointSets

variable {s : DisjointSets} {node : Nat}

/-- The pointers as words. -/
def words (s : DisjointSets) : Array UInt64 := s.parents.map UInt64.ofNat

@[simp] theorem words_new (size : UInt64) : Paged.ofArray (new size.toNat).words = Pointers.new size := by
  rw [Pointers.new, Paged.ofFn_eq]
  rfl

theorem getElem?_words (hnode : node < s.size) : s.words[node]? = some (.ofNat (s.parent node)) := by
  have hparent : s.parent node = s.parents[node] := by
    rw [parent, Array.getD_eq_getD_getElem?, Array.getElem?_eq_getElem hnode, Option.getD_some]
  rw [words, Array.getElem?_map, Array.getElem?_eq_getElem hnode, Option.map_some, hparent]

theorem words_link {target : Nat} (h : target ≤ node) :
    (s.link node target h).words = s.words.setIfInBounds node (.ofNat target) :=
  Array.map_setIfInBounds ..

/-- Pointing a root at itself changes nothing. -/
theorem words_link_self (hnode : node < s.size) (htop : s.parent node = node) {target : Nat} (h : target ≤ node)
    (heq : target = node) : (s.link node target h).words = s.words := by
  rw [words_link, heq]
  exact Paged.setIfInBounds_self (by rw [getElem?_words hnode, htop])

theorem root_lt_size (hnode : node < s.size) : s.root node < s.size := (s.root_le node).trans_lt hnode

end DisjointSets

namespace Pointers

open DisjointSets

variable {s : DisjointSets} {node : Nat}

theorem toNat_ofNat (hsize : s.size ≤ UInt64.size) (hnode : node < s.size) : (UInt64.ofNat node).toNat = node :=
  UInt64.toNat_ofNat_of_lt' (hnode.trans_le hsize)

theorem ofNat_eq_iff (hsize : s.size ≤ UInt64.size) {a b : Nat} (ha : a < s.size) (hb : b < s.size) :
    UInt64.ofNat a = UInt64.ofNat b ↔ a = b := by
  rw [← UInt64.toNat_inj, toNat_ofNat hsize ha, toNat_ofNat hsize hb]

theorem ofNat_lt_iff (hsize : s.size ≤ UInt64.size) {a b : Nat} (ha : a < s.size) (hb : b < s.size) :
    UInt64.ofNat a < UInt64.ofNat b ↔ a < b := by
  rw [UInt64.lt_iff_toNat_lt, toNat_ofNat hsize ha, toNat_ofNat hsize hb]

/-- A word is read where the number points. -/
theorem get?_words (hsize : s.size ≤ UInt64.size) (hnode : node < s.size) :
    (Paged.ofArray s.words).get? (UInt64.ofNat node).toNat = some (.ofNat (s.parent node)) := by
  rw [toNat_ofNat hsize hnode, Paged.get?_ofArray, getElem?_words hnode]

/-- Nobody else changes words, so a number is pointed elsewhere at the first try. -/
theorem compareAndSet?_words (hsize : s.size ≤ UInt64.size) (hnode : node < s.size) {target : Nat}
    (h : target ≤ node) :
    (Paged.ofArray s.words).compareAndSet? (UInt64.ofNat node).toNat (.ofNat (s.parent node)) (.ofNat target) =
      some (true, .ofArray (s.link node target h).words) := by
  rw [Paged.compareAndSet?, Paged.compareAndExchange?_ofArray, toNat_ofNat hsize hnode, getElem?_words hnode,
    words_link]
  simp

/-- Going to a root ends with the root, and leaves the pointers of finding it. -/
theorem find?_words (node : Nat) : ∀ {s : DisjointSets} {turns : Nat}, s.size ≤ UInt64.size → node < s.size →
    node < turns → find? turns (.ofNat node) (.ofArray s.words) =
      some (.ofNat (s.find node).1, .ofArray (s.find node).2.words) := by
  -- a turn goes on at the grandparent, which is smaller, so one turn less is enough from there
  induction node using Nat.strong_induction_on with
  | h node ih =>
    intro s turns hsize hnode hturns
    obtain ⟨turns, rfl⟩ : ∃ k, turns = k + 1 := ⟨turns - 1, by omega⟩
    have hle := s.parent_le node
    have hparent : s.parent node < s.size := hle.trans_lt hnode
    rw [find?, get?_words hsize hnode, Option.bind_some, DisjointSets.find]
    by_cases htop : s.parent node = node
    · rw [if_pos ((ofNat_eq_iff hsize hparent hnode).mpr htop), dif_pos htop]
    · have hlt : s.parent node < node := Nat.lt_of_le_of_ne hle htop
      have hgrand : s.parent (s.parent node) < node := (s.parent_le _).trans_lt hlt
      have hgrandSize := hgrand.trans hnode
      rw [if_neg (mt (ofNat_eq_iff hsize hparent hnode).mp htop), dif_neg htop, get?_words hsize hparent,
        Option.bind_some]
      by_cases hgrandTop : s.parent (s.parent node) = s.parent node
      · simp only [if_pos hgrandTop, if_pos ((ofNat_eq_iff hsize hgrandSize hparent).mpr hgrandTop)]
        exact ih _ hgrand hsize hgrandSize (by omega)
      · simp only [if_neg hgrandTop, if_neg (mt (ofNat_eq_iff hsize hgrandSize hparent).mp hgrandTop)]
        rw [compareAndSet?_words hsize hnode hgrand.le, Option.bind_some]
        exact ih _ hgrand (by rwa [size_link]) (by rwa [size_link]) (by omega)

/-- Going to two roots, one after the other, ends with both. -/
theorem find?_find?_words (hsize : s.size ≤ UInt64.size) {left right : Nat} (hleft : left < s.size)
    (hright : right < s.size) {turns : Nat} (hturns : s.size ≤ turns) :
    find? turns (.ofNat left) (.ofArray s.words) = some (.ofNat (s.root left), .ofArray (s.find left).2.words) ∧
      find? turns (.ofNat right) (.ofArray (s.find left).2.words) =
        some (.ofNat (s.root right), .ofArray ((s.find left).2.find right).2.words) := by
  obtain ⟨hfirst, hsecond, -⟩ := find_find_spec left right s
  have hsizeA := (find_spec left s).2.1
  rw [find?_words left hsize hleft (hleft.trans_le hturns),
    find?_words right (hsizeA ▸ hsize) (hsizeA ▸ hright) (hright.trans_le hturns), hfirst, hsecond]
  exact ⟨rfl, rfl⟩

/-- Uniting ends with the pointers of the union. -/
theorem union?_words (hsize : s.size ≤ UInt64.size) {left right : Nat} (hleft : left < s.size)
    (hright : right < s.size) {climb turns : Nat} (hclimb : s.size ≤ climb) (hturns : 0 < turns) :
    union? climb turns (.ofNat left) (.ofNat right) (.ofArray s.words) =
      some (.ofArray (s.union left right).words) := by
  obtain ⟨turns, rfl⟩ : ∃ k, turns = k + 1 := ⟨turns - 1, by omega⟩
  obtain ⟨hclimbA, hclimbB⟩ := find?_find?_words hsize hleft hright hclimb
  obtain ⟨hfirst, hsecond, husize, hroots⟩ := find_find_spec left right s
  simp only [union?, hclimbA, hclimbB, Option.bind_some, DisjointSets.union, hfirst, hsecond]
  -- from here on only the two roots and the sets after both searches matter
  generalize ((s.find left).2.find right).2 = u at husize hroots ⊢
  have htop : ∀ i, u.parent (s.root i) = s.root i := fun i => by rw [← hroots, parent_root]
  have ha : s.root left < u.size := husize ▸ root_lt_size hleft
  have hb : s.root right < u.size := husize ▸ root_lt_size hright
  rw [← husize] at hsize
  by_cases heq : s.root left = s.root right
  · rw [if_pos ((ofNat_eq_iff hsize ha hb).mpr heq), dif_pos heq.le, words_link_self hb (htop right) heq.le heq]
  · rw [if_neg (mt (ofNat_eq_iff hsize ha hb).mp heq)]
    by_cases hle : s.root left ≤ s.root right
    · have hlink := compareAndSet?_words hsize hb hle
      rw [htop] at hlink
      rw [dif_pos hle, if_pos ((ofNat_lt_iff hsize ha hb).mpr (Nat.lt_of_le_of_ne hle heq))]
      simp only [hlink, Option.bind_some, if_true]
    · have hlink := compareAndSet?_words hsize ha (Nat.le_of_not_le hle)
      rw [htop] at hlink
      rw [dif_neg hle, if_neg (mt (ofNat_lt_iff hsize ha hb).mp fun hlt => hle hlt.le)]
      simp only [hlink, Option.bind_some, if_true]

/-- Asking whether two numbers are in one set ends with the answer. -/
theorem sameSet?_words (hsize : s.size ≤ UInt64.size) {left right : Nat} (hleft : left < s.size)
    (hright : right < s.size) {turns : Nat} (hturns : s.size ≤ turns) :
    sameSet? turns (.ofNat left) (.ofNat right) (.ofArray s.words) =
      some ((s.sameSet left right).1, .ofArray (s.sameSet left right).2.words) := by
  obtain ⟨hclimbA, hclimbB⟩ := find?_find?_words hsize hleft hright hturns
  obtain ⟨hfirst, hsecond, -⟩ := find_find_spec left right s
  simp only [sameSet?, hclimbA, hclimbB, Option.bind_some, Option.map_some, DisjointSets.sameSet, hfirst, hsecond]
  rw [beq_eq_decide, beq_eq_decide,
    decide_eq_decide.mpr (ofNat_eq_iff hsize (root_lt_size hleft) (root_lt_size hright))]

end Pointers

end PackedGraph
