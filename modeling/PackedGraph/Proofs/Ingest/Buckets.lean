import Mathlib.Data.List.Basic
import PackedGraph.Ingest.Intake

/-!
# What lies in the buckets

Buckets *distribute* a list of stored relationships when each of them holds the entries that belong to
it, in the order of the list.  The buckets of an intake and the buffers of a batch are filled by
different functions; both distribute what has been put in.

Main statements: `Distributes.foldl_receive` and `Batch.Holds.push`.
-/

namespace PackedGraph

/-- A list is a permutation of its parts. -/
theorem perm_flatMap_filter {α : Type} (part : α → Nat) {xs : List α} {count : Nat}
    (h : ∀ x ∈ xs, part x < count) :
    xs.Perm ((List.range count).flatMap fun i => xs.filter (part · == i)) := by
  induction count generalizing xs with
  | zero =>
    rw [List.eq_nil_iff_forall_not_mem.mpr fun x hx => Nat.not_lt_zero _ (h x hx)]
    exact .nil
  | succ count ih =>
    have hbefore := @ih (xs.filter fun x => part x != count) fun x hx => by
      obtain ⟨hx, hne⟩ := List.mem_filter.mp hx
      have := h x hx
      have : part x ≠ count := by simpa using hne
      omega
    have hparts : ((List.range count).flatMap fun i => (xs.filter fun x => part x != count).filter (part · == i)) =
        (List.range count).flatMap fun i => xs.filter (part · == i) := by
      refine List.flatMap_congr fun i hi => ?_
      have hne : i ≠ count := Nat.ne_of_lt (List.mem_range.mp hi)
      rw [List.filter_filter]
      refine List.filter_congr fun x _ => ?_
      by_cases heq : part x = i <;> simp [heq, hne]
    rw [List.range_succ, List.flatMap_append, List.flatMap_singleton, ← hparts]
    have hsplit := List.filter_append_perm (fun x => part x != count) xs
    simp only [bne, Bool.not_not] at hsplit hbefore
    exact hsplit.symm.trans (hbefore.append_right _)

/-- Each of so many buckets holds its part of a list, in order. -/
structure Distributes (bucketOf : Nat → Nat) (count : Nat) (buckets : Array (Array StoredRelationship))
    (relationships : List StoredRelationship) : Prop where
  /-- How many buckets there are. -/
  size_eq : buckets.size = count
  /-- What they hold. -/
  toList_eq : ∀ bucket < count, (buckets.getD bucket #[]).toList =
    relationships.filter fun r => bucketOf r.source == bucket

theorem distributes_replicate (bucketOf : Nat → Nat) (count : Nat) :
    Distributes bucketOf count (Array.replicate count #[]) [] := by
  refine ⟨Array.size_replicate, fun bucket hbucket => ?_⟩
  rw [Array.getD_eq_getD_getElem?, Array.getElem?_replicate, if_pos hbucket]
  rfl

theorem getD_modify {α : Type} {buckets : Array (Array α)} {bucket : Nat}
    (h : bucket < buckets.size) (changed : Nat) (change : Array α → Array α) :
    (buckets.modify changed change).getD bucket #[] =
      if changed = bucket then change (buckets.getD bucket #[]) else buckets.getD bucket #[] := by
  simp only [Array.getD_eq_getD_getElem?, Array.getElem?_modify, Array.getElem?_eq_getElem h]
  split <;> rfl

section

variable {bucketOf : Nat → Nat} {count : Nat} {buckets : Array (Array StoredRelationship)}
  {relationships more : List StoredRelationship}

/-- One more is put at the end of its bucket. -/
theorem Distributes.push (h : Distributes bucketOf count buckets relationships)
    (r : StoredRelationship) :
    Distributes bucketOf count (buckets.modify (bucketOf r.source) (·.push r)) (relationships ++ [r]) := by
  refine ⟨by rw [Array.size_modify, h.size_eq], fun bucket hbucket => ?_⟩
  rw [getD_modify (h.size_eq ▸ hbucket), List.filter_append, ← h.toList_eq bucket hbucket]
  by_cases heq : bucketOf r.source = bucket
  · rw [if_pos heq, Array.toList_push, List.filter_cons_of_pos (by simpa using heq)]
    rfl
  · rw [if_neg heq, List.filter_cons_of_neg (by simpa using heq)]
    exact (List.append_nil _).symm

/-! ## Deliveries -/

/-- What deliveries bring to a bucket. -/
def broughtTo (bucket : Nat) (deliveries : List Delivery) : List StoredRelationship :=
  (deliveries.filter (·.bucket == bucket)).flatMap (·.relationships.toList)

theorem broughtTo_cons (bucket : Nat) (d : Delivery) (deliveries : List Delivery) :
    broughtTo bucket (d :: deliveries) =
      (if d.bucket = bucket then d.relationships.toList else []) ++ broughtTo bucket deliveries := by
  rw [broughtTo, broughtTo]
  by_cases heq : d.bucket = bucket
  · rw [if_pos heq, List.filter_cons_of_pos (by simpa using heq), List.flatMap_cons]
  · rw [if_neg heq, List.filter_cons_of_neg (by simpa using heq), List.nil_append]

theorem broughtTo_append (bucket : Nat) (deliveries more : List Delivery) :
    broughtTo bucket (deliveries ++ more) = broughtTo bucket deliveries ++ broughtTo bucket more := by
  rw [broughtTo, broughtTo, broughtTo, List.filter_append, List.flatMap_append]

/-- A delivery is put at the end of its bucket. -/
def receive (buckets : Array (Array StoredRelationship)) (d : Delivery) :
    Array (Array StoredRelationship) :=
  buckets.modify d.bucket (· ++ d.relationships)

/-- An intake puts every delivery at the end of its bucket, and changes nothing else. -/
theorem Intake.foldl_deliver (t : Intake) (deliveries : List Delivery) :
    deliveries.foldl deliver t = { t with buckets := deliveries.foldl receive t.buckets } := by
  induction deliveries generalizing t with
  | nil => rfl
  | cons d deliveries ih => exact ih (t.deliver d)

theorem toList_foldl_receive {bucket : Nat} (deliveries : List Delivery) :
    ∀ {buckets : Array (Array StoredRelationship)}, bucket < buckets.size →
      ((deliveries.foldl receive buckets).getD bucket #[]).toList =
        (buckets.getD bucket #[]).toList ++ broughtTo bucket deliveries := by
  induction deliveries with
  | nil => exact fun _ => (List.append_nil _).symm
  | cons d deliveries ih =>
    intro buckets hbucket
    rw [List.foldl_cons, ih (by rw [receive, Array.size_modify]; exact hbucket), receive,
      getD_modify hbucket]
    rw [broughtTo_cons]
    by_cases heq : d.bucket = bucket
    · rw [if_pos heq, if_pos heq, Array.toList_append, List.append_assoc]
    · rw [if_neg heq, if_neg heq, List.nil_append]

theorem size_foldl_receive (deliveries : List Delivery)
    (buckets : Array (Array StoredRelationship)) :
    (deliveries.foldl receive buckets).size = buckets.size := by
  induction deliveries generalizing buckets with
  | nil => rfl
  | cons d deliveries ih => rw [List.foldl_cons, ih, receive, Array.size_modify]

/-- Deliveries that bring every bucket its part of a list. -/
theorem Distributes.foldl_receive (h : Distributes bucketOf count buckets relationships)
    {deliveries : List Delivery} (hbrought : ∀ bucket < count,
      broughtTo bucket deliveries = more.filter fun r => bucketOf r.source == bucket) :
    Distributes bucketOf count (deliveries.foldl receive buckets) (relationships ++ more) := by
  refine ⟨by rw [size_foldl_receive, h.size_eq], fun bucket hbucket => ?_⟩
  rw [toList_foldl_receive _ (h.size_eq ▸ hbucket), h.toList_eq bucket hbucket,
    hbrought bucket hbucket,
    List.filter_append]

/-- Relationships that are delivered one by one. -/
theorem broughtTo_map_singleton (bucket : Nat) (relationships : List StoredRelationship) :
    broughtTo bucket (relationships.map fun r => ⟨bucketOf r.source, #[r]⟩) =
      relationships.filter fun r => bucketOf r.source == bucket := by
  induction relationships with
  | nil => rfl
  | cons r relationships ih =>
    rw [List.map_cons, broughtTo_cons, ih]
    by_cases heq : bucketOf r.source = bucket
    · rw [if_pos heq, List.filter_cons_of_pos (by simpa using heq)]
      rfl
    · rw [if_neg heq, List.filter_cons_of_neg (by simpa using heq), List.nil_append]

end

/-! ## Batches -/

namespace Batch

/-- The deliveries of buffers that are numbered from some number on. -/
theorem broughtTo_buffers (bucket : Nat) (buffers : List (Array StoredRelationship)) (first : Nat) :
    broughtTo bucket (((buffers.zipIdx first).filter fun (buffer, _) => !buffer.isEmpty).map
        fun (buffer, bucket) => ⟨bucket, buffer⟩) =
      if first ≤ bucket then (buffers[bucket - first]?.getD #[]).toList else [] := by
  induction buffers generalizing first with
  | nil => simp [broughtTo]
  | cons buffer buffers ih =>
    have hbrought : broughtTo bucket ((((buffer, first) :: buffers.zipIdx (first + 1)).filter
          fun (buffer, _) => !buffer.isEmpty).map fun (buffer, bucket) => ⟨bucket, buffer⟩) =
        (if first = bucket then buffer.toList else []) ++
          if first + 1 ≤ bucket then (buffers[bucket - (first + 1)]?.getD #[]).toList else [] := by
      by_cases hempty : buffer.isEmpty
      · rw [List.filter_cons_of_neg (by simp [hempty]), ih]
        rw [Array.isEmpty_iff.mp hempty, ite_self, List.nil_append]
      · rw [List.filter_cons_of_pos (by simp [hempty]), List.map_cons, broughtTo_cons, ih]
    rw [List.zipIdx_cons, hbrought]
    rcases Nat.lt_trichotomy first bucket with hlt | rfl | hgt
    · rw [if_neg (Nat.ne_of_lt hlt), if_pos (Nat.succ_le_of_lt hlt), if_pos (Nat.le_of_lt hlt),
        show bucket - first = bucket - (first + 1) + 1 by omega, List.getElem?_cons_succ, List.nil_append]
    · rw [if_pos rfl, if_neg (by omega), if_pos (Nat.le_refl _), Nat.sub_self, List.append_nil]
      rfl
    · rw [if_neg (Nat.ne_of_gt hgt), if_neg (by omega), if_neg (by omega)]
      rfl

/-- A batch that has been given a list and has handed over nothing of it. -/
structure Holds (bucketOf : Nat → Nat) (count : Nat) (b : Batch) (held : List StoredRelationship) :
    Prop where
  /-- The buffers hold it. -/
  distributes : Distributes bucketOf count b.buffers held
  /-- Its length has been counted. -/
  buffered_eq : b.buffered = held.length

variable {bucketOf : Nat → Nat} {count : Nat} {b : Batch} {held : List StoredRelationship}

theorem holds_new (bucketOf : Nat → Nat) (count : Nat) : Holds bucketOf count (.new count) [] :=
  ⟨distributes_replicate bucketOf count, rfl⟩

theorem Holds.push (h : Holds bucketOf count b held) (relationships : List StoredRelationship) :
    Holds bucketOf count (b.push bucketOf relationships) (held ++ relationships) := by
  induction relationships generalizing b held with
  | nil =>
    rw [List.append_nil]
    exact h
  | cons r relationships ih =>
    have hone : Holds bucketOf count ⟨b.buffers.modify (bucketOf r.source) (·.push r), b.buffered + 1⟩
        (held ++ [r]) :=
      ⟨h.distributes.push r, by rw [List.length_append, h.buffered_eq]; rfl⟩
    have := ih hone
    rw [List.append_assoc] at this
    exact this

/-- A batch that hands over brings every bucket its part of what it holds. -/
theorem Holds.broughtTo_deliveries (h : Holds bucketOf count b held) {bucket : Nat}
    (hbucket : bucket < count) :
    broughtTo bucket b.deliveries = held.filter fun r => bucketOf r.source == bucket := by
  rw [deliveries]
  by_cases hzero : b.buffered = 0
  · rw [if_pos hzero, List.eq_nil_of_length_eq_zero (h.buffered_eq.symm.trans hzero)]
    rfl
  · rw [if_neg hzero, broughtTo_buffers, if_pos (Nat.zero_le _),
      ← h.distributes.toList_eq bucket hbucket,
      Array.getElem?_toList, Array.getD_eq_getD_getElem?]
    rfl

end Batch

end PackedGraph
