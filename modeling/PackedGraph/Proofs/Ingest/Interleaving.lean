import PackedGraph.Proofs.Graph.Built
import PackedGraph.Proofs.Numeric.Extremes

/-!
# Batches that hand over at the same time

A batch hands over bucket by bucket, and between two appends of a flush other batches may append theirs.
So all that can be said of an interleaving is that the appends of each batch keep their order.

What arrives at a bucket is then still what the batches were given for it, but the order depends on the
interleaving, and it may be another one at another bucket.  A relationship that is stored in both
directions goes to two buckets: the weights at its two ends are the same up to their order, and they are in
the same order where the flushes reach both buckets in the same order.

Main statements: `Intake.exists_interleaves` and `weights_at_both_ends`.
-/

namespace PackedGraph

/-! ## What a batch hands over -/

namespace Batch

/-- A batch after another flush, and the flushes up to then. -/
def handOver (nodes : IdMap) (s : RelationshipSettings) (state : List (List Delivery) × Batch) :
    List (List Delivery) × Batch :=
  (state.1 ++ [state.2.deliveries], .new (Intake.new nodes s 0).partitions.length)

/-- A batch after a call, and the flushes up to then.  It hands over when it is full, and when it is told
to. -/
def serve (nodes : IdMap) (s : RelationshipSettings) (state : List (List Delivery) × Batch) (call : Call) :
    List (List Delivery) × Batch :=
  match call.offer? nodes s with
  | some offer =>
    let state := (state.1, state.2.push (Intake.new nodes s 0).bucketOf (s.fanOut offer))
    if max s.batchSize 1 ≤ state.2.buffered then handOver nodes s state else state
  | none =>
    match call with
    | .flush _ => handOver nodes s state
    | _ => state

/-- A new batch after some calls, and the flushes up to then. -/
def serveAll (nodes : IdMap) (s : RelationshipSettings) (calls : List Call) : List (List Delivery) × Batch :=
  calls.foldl (serve nodes s) ([], .new (Intake.new nodes s 0).partitions.length)

/-- What a batch hands over, flush by flush, from its first call until it is closed. -/
def handOvers (nodes : IdMap) (s : RelationshipSettings) (calls : List Call) : List (List Delivery) :=
  (handOver nodes s (serveAll nodes s calls)).1

/-- A flush hands over what has been offered. -/
def Brings (nodes : IdMap) (s : RelationshipSettings) (deliveries : List Delivery)
    (offered : List StoredRelationship) : Prop :=
  ∃ b : Batch, b.Holds (Intake.new nodes s 0).bucketOf (Intake.new nodes s 0).partitions.length
    (offered.flatMap s.fanOut) ∧ deliveries = b.deliveries

variable {nodes : IdMap} {s : RelationshipSettings}

/-- Every flush hands over some of the offers, and the batch has the others. -/
theorem exists_offered_serveAll (nodes : IdMap) (s : RelationshipSettings) (calls : List Call) :
    ∃ (offered : List (List StoredRelationship)) (held : List StoredRelationship),
      List.Forall₂ (Brings nodes s) (serveAll nodes s calls).1 offered ∧
        (serveAll nodes s calls).2.Holds (Intake.new nodes s 0).bucketOf
          (Intake.new nodes s 0).partitions.length (held.flatMap s.fanOut) ∧
        offered.flatten ++ held = offers nodes s calls := by
  induction calls using List.reverseRecOn with
  | nil => exact ⟨[], [], .nil, holds_new _ _, rfl⟩
  | append_singleton calls call ih =>
    obtain ⟨offered, held, hdone, hholds, hoffers⟩ := ih
    have hstep : serveAll nodes s (calls ++ [call]) = serve nodes s (serveAll nodes s calls) call := by
      rw [serveAll, List.foldl_append]
      rfl
    have hflush : ∀ {b : Batch} {held : List StoredRelationship},
        b.Holds (Intake.new nodes s 0).bucketOf (Intake.new nodes s 0).partitions.length
          (held.flatMap s.fanOut) →
        List.Forall₂ (Brings nodes s) ((serveAll nodes s calls).1 ++ [b.deliveries]) (offered ++ [held]) :=
      fun hholds => List.rel_append hdone (.cons ⟨_, hholds, rfl⟩ .nil)
    rw [hstep, serve.eq_def, offers, List.filterMap_append, ← offers, ← hoffers]
    cases hoffer : call.offer? nodes s with
    | some offer =>
      have hpushed := hholds.push (s.fanOut offer)
      rw [← List.flatMap_singleton s.fanOut offer, ← List.flatMap_append] at hpushed
      rw [List.filterMap_cons_some hoffer, List.filterMap_nil]
      simp only
      split
      · refine ⟨offered ++ [held ++ [offer]], [], ?_, holds_new _ _, by simp⟩
        rw [List.flatMap_singleton] at hpushed
        exact hflush hpushed
      · refine ⟨offered, held ++ [offer], hdone, ?_, by simp⟩
        rw [List.flatMap_singleton] at hpushed
        exact hpushed
    | none =>
      rw [List.filterMap_cons_none hoffer, List.filterMap_nil]
      cases call with
      | flush batch => exact ⟨offered ++ [held], [], hflush hholds, holds_new _ _, by simp⟩
      | add | addTo | addDenseTo => exact ⟨offered, held, hdone, hholds, by simp⟩

/-- All that is offered to a batch is handed over in its flushes. -/
theorem exists_offered (nodes : IdMap) (s : RelationshipSettings) (calls : List Call) :
    ∃ offered : List (List StoredRelationship),
      List.Forall₂ (Brings nodes s) (handOvers nodes s calls) offered ∧
        offered.flatten = offers nodes s calls := by
  obtain ⟨offered, held, hdone, hholds, hoffers⟩ := exists_offered_serveAll nodes s calls
  exact ⟨offered ++ [held], List.rel_append hdone (.cons ⟨_, hholds, rfl⟩ .nil), by simpa using hoffers⟩

/-- What a flush brings to a bucket is the bucket's part of what is stored for the offers. -/
theorem Brings.broughtTo_eq {deliveries : List Delivery} {offered : List StoredRelationship}
    (h : Brings nodes s deliveries offered) {bucket : Nat}
    (hbucket : bucket < (Intake.new nodes s 0).partitions.length) :
    broughtTo bucket deliveries =
      (offered.flatMap s.fanOut).filter fun r => (Intake.new nodes s 0).bucketOf r.source == bucket := by
  obtain ⟨b, hholds, rfl⟩ := h
  exact hholds.broughtTo_deliveries hbucket

/-- It comes in one piece. -/
theorem Brings.eq_of_mem {deliveries : List Delivery} {offered : List StoredRelationship}
    (h : Brings nodes s deliveries offered) {d : Delivery} (hd : d ∈ deliveries) :
    d.bucket < (Intake.new nodes s 0).partitions.length ∧ d.relationships.toList =
      (offered.flatMap s.fanOut).filter fun r => (Intake.new nodes s 0).bucketOf r.source == d.bucket := by
  obtain ⟨b, hholds, rfl⟩ := h
  rw [deliveries] at hd
  split at hd
  · exact absurd hd List.not_mem_nil
  · obtain ⟨⟨buffer, bucket⟩, hmem, rfl⟩ := List.mem_map.mp hd
    have hplace := List.mem_zipIdx_iff_getElem?.mp (List.mem_filter.mp hmem).1
    rw [Array.getElem?_toList] at hplace
    have hbucket : bucket < (Intake.new nodes s 0).partitions.length :=
      hholds.distributes.size_eq ▸ (Array.getElem?_eq_some_iff.mp hplace).1
    refine ⟨hbucket, ?_⟩
    rw [← hholds.distributes.toList_eq bucket hbucket, Array.getD_eq_getD_getElem?, hplace, Option.getD_some]

/-- Flushes one after the other bring a bucket its part of what is stored for all offers. -/
theorem broughtTo_flatten {flushes : List (List Delivery)} {offered : List (List StoredRelationship)}
    (h : List.Forall₂ (Brings nodes s) flushes offered) {bucket : Nat}
    (hbucket : bucket < (Intake.new nodes s 0).partitions.length) :
    broughtTo bucket flushes.flatten = (offered.flatten.flatMap s.fanOut).filter fun r =>
      (Intake.new nodes s 0).bucketOf r.source == bucket := by
  induction h with
  | nil => rfl
  | cons hfirst _ ih =>
    rw [List.flatten_cons, broughtTo_append, hfirst.broughtTo_eq hbucket, ih, List.flatten_cons,
      List.flatMap_append, List.filter_append]

end Batch

/-! ## Interleavings -/

/-- An append: a part of a flush arrives at a bucket. -/
structure BucketAppend where
  /-- The batch that hands over. -/
  batch : Nat
  /-- The number of the flush, among those of the batch. -/
  flush : Nat
  /-- What arrives. -/
  delivery : Delivery

/-- The appends of a batch in their order. -/
def appendsOf (batch : Nat) (flushes : List (List Delivery)) : List BucketAppend :=
  flushes.zipIdx.flatMap fun (deliveries, flush) => deliveries.map fun d => ⟨batch, flush, d⟩

theorem map_delivery_appendsOf (batch : Nat) (flushes : List (List Delivery)) :
    (appendsOf batch flushes).map BucketAppend.delivery = flushes.flatten := by
  rw [appendsOf, List.map_flatMap]
  simp only [List.map_map, Function.comp_def, List.map_id']
  rw [List.flatMap_def]
  exact congrArg List.flatten (List.zipIdx_map_fst 0 flushes)

theorem mem_appendsOf {batch : Nat} {flushes : List (List Delivery)} {a : BucketAppend}
    (h : a ∈ appendsOf batch flushes) :
    ∃ deliveries, flushes[a.flush]? = some deliveries ∧ a.delivery ∈ deliveries := by
  obtain ⟨⟨deliveries, flush⟩, hflush, ha⟩ := List.mem_flatMap.mp h
  obtain ⟨d, hd, rfl⟩ := List.mem_map.mp ha
  exact ⟨deliveries, List.mem_zipIdx_iff_getElem?.mp hflush, hd⟩

/-- Appends of several batches at the same time: those of each batch are in their order. -/
def Interleaves (flushes : List (List (List Delivery))) (trace : List BucketAppend) : Prop :=
  ∀ batch : Nat, trace.filter (·.batch == batch) = appendsOf batch (flushes[batch]?.getD [])

namespace Interleaves

variable {flushes : List (List (List Delivery))} {trace : List BucketAppend}

/-- Every append belongs to a flush of its batch. -/
theorem exists_of_mem (h : Interleaves flushes trace) {a : BucketAppend} (ha : a ∈ trace) :
    ∃ own deliveries, flushes[a.batch]? = some own ∧ own[a.flush]? = some deliveries ∧
      a.delivery ∈ deliveries := by
  have hmem : a ∈ trace.filter (·.batch == a.batch) := List.mem_filter.mpr ⟨ha, beq_self_eq_true _⟩
  rw [h a.batch] at hmem
  obtain ⟨deliveries, hflush, hd⟩ := mem_appendsOf hmem
  cases hown : flushes[a.batch]? with
  | none =>
    rw [hown] at hflush
    exact absurd hflush (by simp)
  | some own =>
    rw [hown] at hflush
    exact ⟨own, deliveries, rfl, hflush, hd⟩

/-- All deliveries of all flushes arrive. -/
theorem perm_deliveries (h : Interleaves flushes trace) :
    (trace.map BucketAppend.delivery).Perm (flushes.flatMap List.flatten) := by
  have hlabels : ∀ a ∈ trace, a.batch < flushes.length := fun a ha => by
    obtain ⟨own, -, hown, -⟩ := h.exists_of_mem ha
    exact (List.getElem?_eq_some_iff.mp hown).1
  have hall : ((List.range flushes.length).flatMap fun batch => trace.filter (·.batch == batch)).map
      BucketAppend.delivery = flushes.flatMap List.flatten := by
    rw [List.map_flatMap]
    simp only [h _, map_delivery_appendsOf]
    conv_rhs => rw [← map_range_getD flushes [], List.flatMap_map]
  rw [← hall]
  exact (perm_flatMap_filter BucketAppend.batch hlabels).map _

end Interleaves

/-! ## What arrives at the buckets -/

variable {nodes : IdMap} {s : RelationshipSettings} {batches : List (List Call)} {trace : List BucketAppend}

/-- What all batches store in the end. -/
def storedBy (nodes : IdMap) (s : RelationshipSettings) (batches : List (List Call)) : List StoredRelationship :=
  (batches.flatMap (offers nodes s)).flatMap s.fanOut

/-- Without interleaving every bucket gets its part of what the batches store. -/
theorem broughtTo_handOvers (nodes : IdMap) (s : RelationshipSettings) (batches : List (List Call)) {bucket : Nat}
    (hbucket : bucket < (Intake.new nodes s 0).partitions.length) :
    broughtTo bucket ((batches.map (Batch.handOvers nodes s)).flatMap List.flatten) =
      (storedBy nodes s batches).filter fun r => (Intake.new nodes s 0).bucketOf r.source == bucket := by
  induction batches with
  | nil => rfl
  | cons calls batches ih =>
    obtain ⟨offered, hbrings, hoffered⟩ := Batch.exists_offered nodes s calls
    rw [List.map_cons, List.flatMap_cons, broughtTo_append, ih, Batch.broughtTo_flatten hbrings hbucket,
      hoffered, storedBy, storedBy, List.flatMap_cons, List.flatMap_append, List.filter_append]

/-- What appends bring to a bucket. -/
def arrivedAt (trace : List BucketAppend) (bucket : Nat) : List StoredRelationship :=
  broughtTo bucket (trace.map BucketAppend.delivery)

/-- In every interleaving it gets the same, in some order. -/
theorem Interleaves.perm_arrivedAt (h : Interleaves (batches.map (Batch.handOvers nodes s)) trace) {bucket : Nat}
    (hbucket : bucket < (Intake.new nodes s 0).partitions.length) :
    (arrivedAt trace bucket).Perm
      ((storedBy nodes s batches).filter fun r => (Intake.new nodes s 0).bucketOf r.source == bucket) := by
  rw [← broughtTo_handOvers nodes s batches hbucket]
  exact (h.perm_deliveries.filter _).flatMap_right _

/-- Each append brings its bucket a part of what is stored for the offers of its flush. -/
theorem Interleaves.exists_offered (h : Interleaves (batches.map (Batch.handOvers nodes s)) trace) :
    ∃ offered : Nat × Nat → List StoredRelationship, ∀ a ∈ trace, a.delivery.relationships.toList =
      ((offered (a.batch, a.flush)).flatMap s.fanOut).filter fun r =>
        (Intake.new nodes s 0).bucketOf r.source == a.delivery.bucket := by
  choose offered hbrings _ using Batch.exists_offered nodes s
  refine ⟨fun flush => ((batches[flush.1]?.map offered).getD [])[flush.2]?.getD [], fun a ha => ?_⟩
  obtain ⟨own, deliveries, hown, hflush, hd⟩ := h.exists_of_mem ha
  rw [List.getElem?_map, Option.map_eq_some_iff] at hown
  obtain ⟨calls, hcalls, rfl⟩ := hown
  have hbatch := hbrings calls
  obtain ⟨hlt, hdeliveries⟩ := List.getElem?_eq_some_iff.mp hflush
  have hlt' : a.flush < (offered calls).length := hbatch.length_eq ▸ hlt
  have hbring := hbatch.get hlt hlt'
  rw [List.get_eq_getElem, List.get_eq_getElem, hdeliveries] at hbring
  simp only [hcalls, Option.map_some, Option.getD_some, List.getElem?_eq_getElem hlt']
  exact (hbring.eq_of_mem hd).2

/-- Parts that are put behind each other can be taken out again. -/
theorem filter_flatMap_range {α : Type} (part : α → Nat) {parts : Nat → List α} {count : Nat}
    (h : ∀ i < count, ∀ x ∈ parts i, part x = i) {i : Nat} (hi : i < count) :
    ((List.range count).flatMap parts).filter (part · == i) = parts i := by
  induction count with
  | zero => exact absurd hi (Nat.not_lt_zero _)
  | succ count ih =>
    rw [List.range_succ, List.flatMap_append, List.flatMap_singleton, List.filter_append]
    have hbefore : ∀ j < count, ∀ x ∈ parts j, part x = j := fun j hj => h j (Nat.lt_succ_of_lt hj)
    rcases Nat.lt_succ_iff_lt_or_eq.mp hi with hlt | rfl
    · rw [ih hbefore hlt, List.filter_eq_nil_iff.mpr, List.append_nil]
      intro x hx
      have := h count (Nat.lt_succ_self _) x hx
      simp only [beq_iff_eq]
      omega
    · rw [List.filter_eq_nil_iff.mpr, List.nil_append, List.filter_eq_self]
      · exact fun x hx => beq_iff_eq.mpr (h i (Nat.lt_succ_self _) x hx)
      · intro x hx
        obtain ⟨j, hj, hx⟩ := List.mem_flatMap.mp hx
        have hj := List.mem_range.mp hj
        have := hbefore j hj x hx
        simp only [beq_iff_eq]
        omega

/-- All that arrives, bucket after bucket. -/
def arrivedAll (nodes : IdMap) (s : RelationshipSettings) (trace : List BucketAppend) : List StoredRelationship :=
  (List.range (Intake.new nodes s 0).partitions.length).flatMap (arrivedAt trace)

theorem Interleaves.filter_arrivedAll (h : Interleaves (batches.map (Batch.handOvers nodes s)) trace)
    {bucket : Nat} (hbucket : bucket < (Intake.new nodes s 0).partitions.length) :
    ((arrivedAll nodes s trace).filter fun r => (Intake.new nodes s 0).bucketOf r.source == bucket) =
      arrivedAt trace bucket := by
  refine filter_flatMap_range (fun r : StoredRelationship => (Intake.new nodes s 0).bucketOf r.source)
    (fun i hi r hr => ?_) hbucket
  rw [(h.perm_arrivedAt hi).mem_iff] at hr
  exact beq_iff_eq.mp (List.mem_filter.mp hr).2

/-- What arrives is between nodes. -/
theorem Interleaves.allBelow_arrivedAll (hnodes : nodes.Valid)
    (h : Interleaves (batches.map (Batch.handOvers nodes s)) trace) :
    AllBelow nodes.nodeCount (arrivedAll nodes s trace) := by
  intro r hr
  obtain ⟨bucket, hbucket, hr⟩ := List.mem_flatMap.mp hr
  rw [(h.perm_arrivedAt (List.mem_range.mp hbucket)).mem_iff] at hr
  obtain ⟨offer, hoffer, hr⟩ := List.mem_flatMap.mp (List.mem_filter.mp hr).1
  obtain ⟨calls, -, hoffer⟩ := List.mem_flatMap.mp hoffer
  exact allBelow_offers hnodes.dense_lt s calls r (List.mem_flatMap.mpr ⟨offer, hoffer, hr⟩)

namespace Intake

/-- A new intake after appends. -/
def afterAppends (nodes : IdMap) (s : RelationshipSettings) (trace : List BucketAppend) : Intake :=
  (trace.map BucketAppend.delivery).foldl deliver (.new nodes s 0)

/-- Its buckets hold all that arrives. -/
theorem keepsLedger_afterAppends (h : Interleaves (batches.map (Batch.handOvers nodes s)) trace) :
    KeepsLedger nodes s (afterAppends nodes s trace) ⟨arrivedAll nodes s trace, []⟩ := by
  have hbuckets := (distributes_replicate (Intake.new nodes s 0).bucketOf
    (Intake.new nodes s 0).partitions.length).foldl_receive fun _ hbucket => (h.filter_arrivedAll hbucket).symm
  rw [List.nil_append] at hbuckets
  rw [afterAppends, foldl_deliver]
  refine ⟨rfl, rfl, rfl, hbuckets, fun batch => ?_⟩
  rw [Intake.new, Array.getElem?_replicate, if_neg (Nat.not_lt_zero batch)]
  exact .none

theorem bucketOf_lt (s : RelationshipSettings) {node : Nat} (h : node < nodes.nodeCount) :
    (Intake.new nodes s 0).bucketOf node < (Intake.new nodes s 0).partitions.length := by
  obtain ⟨hindex, hlt⟩ := partitionIndex?_rangePartition h (max s.concurrency 1)
  rw [bucketOf, Intake.new]
  simp only
  rw [hindex, Option.getD_some]
  exact hlt

end Intake

/-! ## Calls one after the other -/

/-- The calls that go to a batch. -/
def Call.ownOf (batch : Nat) (calls : List Call) : List Call := calls.filter fun call => call.batch? == some batch

theorem appendsOf_append_singleton (batch : Nat) (flushes : List (List Delivery)) (deliveries : List Delivery) :
    appendsOf batch (flushes ++ [deliveries]) =
      appendsOf batch flushes ++ deliveries.map fun d => ⟨batch, flushes.length, d⟩ := by
  rw [appendsOf, List.zipIdx_append, List.flatMap_append, ← appendsOf, Nat.zero_add, List.zipIdx_singleton,
    List.flatMap_singleton]

namespace Intake

/-- An intake with so many batches has taken in some appends, and each batch is in its own state: it has been
handed over in some flushes, and there is what it has buffered since. -/
structure Follows (nodes : IdMap) (s : RelationshipSettings) (count : Nat)
    (states : Nat → List (List Delivery) × Batch) (trace : List BucketAppend) (t : Intake) : Prop where
  /-- What has been taken in. -/
  after_eq : afterAppends nodes s trace = { t with batches := #[] }
  /-- What is buffered. -/
  batches_eq : ∀ batch : Nat, t.batches[batch]? = if batch < count then some (states batch).2 else none
  /-- The appends of each batch. -/
  appends_eq : ∀ batch : Nat, trace.filter (·.batch == batch) = appendsOf batch (states batch).1

variable {count : Nat} {states : Nat → List (List Delivery) × Batch} {t : Intake} {batch : Nat}

theorem follows_new (nodes : IdMap) (s : RelationshipSettings) (count : Nat) :
    Follows nodes s count (fun _ => Batch.serveAll nodes s []) [] (.new nodes s count) :=
  ⟨rfl, fun _ => Array.getElem?_replicate, fun _ => rfl⟩

/-- Appends change nothing but the buckets. -/
theorem Follows.unchanged (h : Follows nodes s count states trace t) :
    t.nodes = nodes ∧ t.settings = s ∧ t.partitions = (Intake.new nodes s 0).partitions := by
  have hafter := h.after_eq
  rw [afterAppends, foldl_deliver] at hafter
  exact ⟨(congrArg Intake.nodes hafter).symm, (congrArg settings hafter).symm, (congrArg partitions hafter).symm⟩

theorem Follows.size_batches (h : Follows nodes s count states trace t) : t.batches.size = count := by
  refine Nat.le_antisymm ?_ (Nat.le_of_not_lt fun hlt => ?_)
  · exact Array.getElem?_eq_none_iff.mp (by rw [h.batches_eq, if_neg (Nat.lt_irrefl _)])
  · have hend := h.batches_eq t.batches.size
    rw [Array.getElem?_eq_none (Nat.le_refl _), if_pos hlt] at hend
    exact absurd hend (by simp)

/-- A flush appends what the batch has buffered. -/
theorem Follows.flush (h : Follows nodes s count states trace t) (hbatch : batch < count) :
    Follows nodes s count
      (Function.update states batch (Batch.handOver nodes s (states batch)))
      (trace ++ (states batch).2.deliveries.map fun d => ⟨batch, (states batch).1.length, d⟩)
      (t.flush batch) := by
  rw [Intake.flush, h.batches_eq batch, if_pos hbatch]
  refine ⟨?taken, fun other => ?buffered, fun other => ?appends⟩
  case taken =>
    rw [afterAppends, List.map_append, List.foldl_append, ← afterAppends, h.after_eq, List.map_map, foldl_deliver]
    simp only [Function.comp_def, List.map_id', foldl_deliver]
  case buffered =>
    simp only [Array.getElem?_setIfInBounds, h.unchanged.2.2]
    by_cases heq : batch = other
    · subst heq
      rw [if_pos rfl, if_pos (h.size_batches ▸ hbatch), if_pos hbatch, Function.update_self, Batch.handOver]
    · rw [if_neg heq, Function.update_of_ne (Ne.symm heq)]
      exact h.batches_eq other
  case appends =>
    rw [List.filter_append, h.appends_eq]
    by_cases heq : batch = other
    · subst heq
      rw [Function.update_self, Batch.handOver, appendsOf_append_singleton, List.filter_eq_self.mpr]
      simp
    · rw [Function.update_of_ne (Ne.symm heq), List.filter_eq_nil_iff.mpr, List.append_nil]
      simpa using fun _ _ => heq

/-- What is put into a batch is buffered. -/
theorem Follows.push (h : Follows nodes s count states trace t) (hbatch : batch < count)
    (relationships : List StoredRelationship) :
    Follows nodes s count
      (Function.update states batch
        ((states batch).1, (states batch).2.push (Intake.new nodes s 0).bucketOf relationships))
      trace { t with batches := t.batches.modify batch (·.push t.bucketOf relationships) } := by
  have hbucketOf : t.bucketOf = (Intake.new nodes s 0).bucketOf := by
    funext node
    rw [bucketOf, bucketOf, h.unchanged.2.2]
  refine ⟨h.after_eq, fun other => ?_, fun other => ?_⟩
  · rw [Array.getElem?_modify, h.batches_eq, hbucketOf]
    by_cases heq : batch = other
    · subst heq
      rw [if_pos rfl, if_pos hbatch, Function.update_self, if_pos hbatch]
      rfl
    · rw [if_neg heq, Function.update_of_ne (Ne.symm heq)]
  · rw [h.appends_eq]
    by_cases heq : batch = other
    · subst heq
      rw [Function.update_self]
    · rw [Function.update_of_ne (Ne.symm heq)]

/-- A batch that is full hands over. -/
theorem Follows.exists_flush_if_full (h : Follows nodes s count states trace t) (hbatch : batch < count) :
    ∃ more, Follows nodes s count
      (Function.update states batch
        (if max s.batchSize 1 ≤ (states batch).2.buffered then Batch.handOver nodes s (states batch)
        else states batch))
      (trace ++ more) (if t.isFull batch then t.flush batch else t) := by
  have hfull : t.isFull batch = decide (max s.batchSize 1 ≤ (states batch).2.buffered) := by
    rw [isFull, h.batches_eq, if_pos hbatch, h.unchanged.2.1]
  rw [hfull]
  by_cases hroom : max s.batchSize 1 ≤ (states batch).2.buffered
  · rw [if_pos hroom, if_pos (decide_eq_true hroom)]
    exact ⟨_, h.flush hbatch⟩
  · rw [if_neg hroom, if_neg (by simpa using hroom), Function.update_eq_self]
    exact ⟨[], by rwa [List.append_nil]⟩

/-- A call changes the batch it goes to, and what that batch hands over is appended. -/
theorem Follows.exists_serve (h : Follows nodes s count states trace t) {call : Call} (hbatch : batch < count)
    (hcall : call.batch? = some batch) :
    ∃ more, Follows nodes s count (Function.update states batch (Batch.serve nodes s (states batch) call))
      (trace ++ more) (t.serve call) := by
  rw [Intake.serve, Batch.serve.eq_def]
  cases hoffer : call.offer? nodes s with
  | some offer =>
    rw [← h.unchanged.1, ← h.unchanged.2.1] at hoffer
    rw [call_of_offer hoffer, hcall, h.unchanged.2.1]
    obtain ⟨more, hbuffered⟩ := (h.push hbatch (s.fanOut offer)).exists_flush_if_full hbatch
    rw [Function.update_self, Function.update_idem] at hbuffered
    exact ⟨more, hbuffered⟩
  | none =>
    cases call with
    | flush flushed =>
      obtain rfl := Option.some.inj hcall
      exact ⟨_, h.flush hbatch⟩
    | add source target weight => exact absurd hcall (by simp [Call.batch?])
    | addTo | addDenseTo =>
      rw [← h.unchanged.1, ← h.unchanged.2.1] at hoffer
      obtain ⟨node, hrefused⟩ := call_of_no_offer hoffer (by simp)
      rw [hrefused, Function.update_eq_self]
      exact ⟨[], by rwa [List.append_nil]⟩

/-- After calls that all go to batches, each batch is in the state in which its own calls leave it. -/
theorem exists_follows_serveAll (nodes : IdMap) (s : RelationshipSettings) {calls : List Call}
    (h : ∀ call ∈ calls, ∃ batch < count, call.batch? = some batch) :
    ∃ trace, Follows nodes s count (fun batch => Batch.serveAll nodes s (Call.ownOf batch calls)) trace
      ((Intake.new nodes s count).serveAll calls) := by
  induction calls using List.reverseRecOn with
  | nil => exact ⟨[], follows_new nodes s count⟩
  | append_singleton calls call ih =>
    obtain ⟨trace, ih⟩ := ih fun c hc => h c (List.mem_append_left _ hc)
    obtain ⟨batch, hbatch, hcall⟩ := h call (List.mem_append_right _ (List.mem_singleton_self call))
    obtain ⟨more, hserved⟩ := ih.exists_serve hbatch hcall
    have hstates : (Function.update (fun batch => Batch.serveAll nodes s (Call.ownOf batch calls)) batch
        (Batch.serve nodes s (Batch.serveAll nodes s (Call.ownOf batch calls)) call)) =
        fun batch => Batch.serveAll nodes s (Call.ownOf batch (calls ++ [call])) := by
      funext other
      have hown : Call.ownOf other (calls ++ [call]) =
          Call.ownOf other calls ++ if batch = other then [call] else [] := by
        rw [Call.ownOf, List.filter_append, ← Call.ownOf, List.filter_singleton]
        simp [hcall]
      by_cases heq : batch = other
      · subst heq
        rw [Function.update_self, hown, if_pos rfl, Batch.serveAll, Batch.serveAll, List.foldl_append]
        rfl
      · rw [Function.update_of_ne (Ne.symm heq), hown, if_neg heq, List.append_nil]
    rw [hstates] at hserved
    rw [serveAll, List.foldl_append]
    exact ⟨trace ++ more, hserved⟩

/-- Closing hands over what the batches have buffered. -/
theorem Follows.exists_flushes (h : Follows nodes s count states trace t) {closed : Nat} (hclosed : closed ≤ count) :
    ∃ more, Follows nodes s count
      (fun batch => if batch < closed then Batch.handOver nodes s (states batch) else states batch)
      (trace ++ more) ((List.range closed).foldl Intake.flush t) := by
  induction closed with
  | zero => exact ⟨[], by simpa using h⟩
  | succ closed ih =>
    obtain ⟨more, ih⟩ := ih (Nat.le_of_succ_le hclosed)
    have hflushed := ih.flush (Nat.lt_of_succ_le hclosed)
    rw [if_neg (Nat.lt_irrefl closed), List.append_assoc] at hflushed
    have hstates : Function.update
        (fun batch => if batch < closed then Batch.handOver nodes s (states batch) else states batch) closed
        (Batch.handOver nodes s (states closed)) =
        fun batch => if batch < closed + 1 then Batch.handOver nodes s (states batch) else states batch := by
      funext batch
      rw [Function.update_apply]
      by_cases heq : batch = closed
      · rw [if_pos heq, if_pos (heq ▸ Nat.lt_succ_self _), heq]
      · have hlt : batch < closed + 1 ↔ batch < closed := by omega
        rw [if_neg heq]
        simp only [hlt]
    rw [List.range_succ, List.foldl_append]
    exact ⟨_, hstates ▸ hflushed⟩

/-- **Calls one after the other interleave what their batches hand over.**  An intake that answers calls in
order, whatever batches they go to, and then closes its batches has taken in an interleaving of what each
batch hands over for its own calls, and nothing else. -/
theorem exists_interleaves (nodes : IdMap) (s : RelationshipSettings) {count : Nat} {calls : List Call}
    (h : ∀ call ∈ calls, ∃ batch < count, call.batch? = some batch) :
    ∃ trace,
      Interleaves (((List.range count).map (Call.ownOf · calls)).map (Batch.handOvers nodes s)) trace ∧
        afterAppends nodes s trace = ((Intake.new nodes s count).serveAll calls).close := by
  obtain ⟨before, hserved⟩ := exists_follows_serveAll nodes s h
  obtain ⟨more, hclosed⟩ := hserved.exists_flushes (Nat.le_refl count)
  refine ⟨before ++ more, fun batch => ?_, ?_⟩
  · rw [hclosed.appends_eq, List.map_map, List.getElem?_map]
    by_cases hbatch : batch < count
    · rw [if_pos hbatch, List.getElem?_range hbatch]
      rfl
    · have hown : Call.ownOf batch calls = [] := List.filter_eq_nil_iff.mpr fun call hcall hgoes => by
        obtain ⟨other, hother, hcall⟩ := h call hcall
        rw [hcall, beq_iff_eq, Option.some_inj] at hgoes
        exact hbatch (hgoes ▸ hother)
      rw [if_neg hbatch, hown, List.getElem?_eq_none (by simpa using hbatch)]
      rfl
  · rw [hclosed.after_eq, close, hserved.size_batches]

end Intake

/-! ## What is kept in any order -/

/-- Two lists of kept weights agree as far as the order of arrival cannot matter: all weights are kept in some
order, the least and the largest are the same numbers, and the count is the same. -/
def Aggregation.Agree (aggregation : Aggregation) (xs ys : List Float) : Prop :=
  match aggregation with
  | none => xs.Perm ys
  | min | max => List.Forall₂ SameNumber xs ys
  | count => xs = ys
  | reject | single | sum => xs.length = ys.length

/-- So it is with what is kept of the same weights in two orders. -/
theorem Aggregation.agree_kept_of_perm (aggregation : Aggregation) {xs ys : List Float} (h : xs.Perm ys) :
    aggregation.Agree (aggregation.kept xs) (aggregation.kept ys) := by
  cases xs with
  | nil =>
    obtain rfl := h.symm.eq_nil
    cases aggregation <;> simp [Agree, kept]
  | cons x xs =>
    cases ys with
    | nil => exact absurd h.eq_nil (List.cons_ne_nil _ _)
    | cons y ys =>
      cases aggregation with
      | none => exact h
      | min => exact .cons (sameNumber_foldl_floatMin h) .nil
      | max => exact .cons (sameNumber_foldl_floatMax h) .nil
      | count => rw [Agree, kept, kept, h.length_eq]
      | reject | single | sum => rfl

/-! ## Weights at both ends -/

/-- What brings nothing can be left out. -/
theorem flatMap_eq_flatMap_filter {α β : Type} (f : α → List β) (xs : List α) :
    xs.flatMap f = (xs.filter fun x => !(f x).isEmpty).flatMap f := by
  induction xs with
  | nil => rfl
  | cons x xs ih =>
    by_cases hnil : f x = []
    · rw [List.filter_cons_of_neg (by simp [hnil]), List.flatMap_cons, hnil, List.nil_append, ih]
    · rw [List.filter_cons_of_pos (by simp [hnil]), List.flatMap_cons, List.flatMap_cons, ih]

theorem weightsBetween_flatMap {α : Type} (source target : Nat) (f : α → List StoredRelationship) (xs : List α) :
    weightsBetween source target (xs.flatMap f) = xs.flatMap fun x => weightsBetween source target (f x) := by
  simp only [weightsBetween, List.filter_flatMap, List.map_flatMap]

theorem perm_weightsBetween {xs ys : List StoredRelationship} (h : xs.Perm ys) (source target : Nat) :
    (weightsBetween source target xs).Perm (weightsBetween source target ys) :=
  (h.filter _).map _

/-- What is stored for an offer has the weight of the offer. -/
theorem weightsBetween_fanOut (s : RelationshipSettings) (source target : Nat) (offer : StoredRelationship) :
    weightsBetween source target (s.fanOut offer) =
      if s.produces source target offer then [offer.weight] else [] := by
  have hweight : ∀ weight ∈ weightsBetween source target (s.fanOut offer), weight = offer.weight := by
    intro weight hweight
    obtain ⟨r, hr, rfl⟩ := List.mem_map.mp hweight
    have hr := (List.mem_filter.mp hr).1
    rw [RelationshipSettings.fanOut, RelationshipSettings.stored] at hr
    split at hr
    · exact absurd hr List.not_mem_nil
    · obtain ⟨pair, -, rfl⟩ := List.mem_map.mp hr
      rfl
  rw [List.eq_replicate_of_mem hweight, length_weightsBetween, countP_fanOut]
  split <;> rfl

/-- What is stored in both directions has the same weights in both, in the same order. -/
theorem weightsBetween_comm (hundirected : s.orientation = .undirected) (offered : List StoredRelationship)
    (u v : Nat) :
    weightsBetween u v (offered.flatMap s.fanOut) = weightsBetween v u (offered.flatMap s.fanOut) := by
  simp only [weightsBetween_flatMap, weightsBetween_fanOut,
    Relationships.produces_comm hundirected u v]

/-- The weights from one node to another in the order in which they arrive. -/
def weightsArriving (trace : List BucketAppend) (source target : Nat) : List Float :=
  trace.flatMap fun a => weightsBetween source target a.delivery.relationships.toList

/-- The flushes that bring such weights, in the order in which they arrive. -/
def carriers (trace : List BucketAppend) (source target : Nat) : List (Nat × Nat) :=
  (trace.filter fun a => !(weightsBetween source target a.delivery.relationships.toList).isEmpty).map
    fun a => (a.batch, a.flush)

section

variable {offered : Nat × Nat → List StoredRelationship} (hoffered : ∀ a ∈ trace,
  a.delivery.relationships.toList = ((offered (a.batch, a.flush)).flatMap s.fanOut).filter fun r =>
    (Intake.new nodes s 0).bucketOf r.source == a.delivery.bucket)

include hoffered

/-- An append brings weights from a node only to the bucket of the node, and then all that its flush has. -/
theorem weightsBetween_append {a : BucketAppend} (ha : a ∈ trace) (source target : Nat) :
    weightsBetween source target a.delivery.relationships.toList =
      if (Intake.new nodes s 0).bucketOf source = a.delivery.bucket then
        weightsBetween source target ((offered (a.batch, a.flush)).flatMap s.fanOut)
      else [] := by
  rw [hoffered a ha]
  split
  · rename_i hbucket
    exact weightsBetween_filter hbucket target _
  · rename_i hbucket
    rw [weightsBetween, List.map_eq_nil_iff, List.filter_eq_nil_iff]
    intro r hr hpair
    obtain ⟨hsource, -⟩ := Bool.and_eq_true_iff.mp hpair
    have hr := beq_iff_eq.mp (List.mem_filter.mp hr).2
    exact hbucket (beq_iff_eq.mp hsource ▸ hr)

/-- The weights arrive flush by flush. -/
theorem weightsArriving_eq (source target : Nat) :
    weightsArriving trace source target = (carriers trace source target).flatMap fun flush =>
      weightsBetween source target ((offered flush).flatMap s.fanOut) := by
  rw [weightsArriving, flatMap_eq_flatMap_filter, carriers, List.flatMap_map]
  refine List.flatMap_congr fun a ha => ?_
  obtain ⟨ha, hsome⟩ := List.mem_filter.mp ha
  have hbrings := weightsBetween_append hoffered ha source target
  split at hbrings
  · exact hbrings
  · rw [hbrings] at hsome
    exact absurd hsome (by simp)

/-- In one bucket the weights of both directions arrive together. -/
theorem weightsArriving_comm_of_bucket (hundirected : s.orientation = .undirected) {u v : Nat}
    (hbucket : (Intake.new nodes s 0).bucketOf u = (Intake.new nodes s 0).bucketOf v) :
    weightsArriving trace u v = weightsArriving trace v u := by
  refine List.flatMap_congr fun a ha => ?_
  rw [weightsBetween_append hoffered ha, weightsBetween_append hoffered ha, hbucket,
    weightsBetween_comm hundirected]

end

/-- What arrives at the bucket of a node are the relationships of the node. -/
theorem Interleaves.weightsBetween_arrivedAt (h : Interleaves (batches.map (Batch.handOvers nodes s)) trace)
    (source target : Nat) :
    weightsBetween source target (arrivedAt trace ((Intake.new nodes s 0).bucketOf source)) =
      weightsArriving trace source target := by
  obtain ⟨offered, hoffered⟩ := h.exists_offered
  have hother : ∀ a ∈ trace, a.delivery.bucket ≠ (Intake.new nodes s 0).bucketOf source →
      weightsBetween source target a.delivery.relationships.toList = [] := fun a ha hne => by
    rw [weightsBetween_append hoffered ha, if_neg (Ne.symm hne)]
  clear h hoffered
  rw [arrivedAt, weightsArriving]
  induction trace with
  | nil => rfl
  | cons a trace ih =>
    obtain ⟨hfirst, hothers⟩ := List.forall_mem_cons.mp hother
    rw [List.map_cons, broughtTo_cons, List.flatMap_cons, ← ih hothers, weightsBetween, List.filter_append,
      List.map_append]
    congr 1
    split
    · rfl
    · rename_i hne
      exact (hfirst hne).symm

/-- The weights that arrive are those of the offers that produce the pair, in some order. -/
theorem Interleaves.perm_weightsArriving (h : Interleaves (batches.map (Batch.handOvers nodes s)) trace)
    {source : Nat} (hsource : source < nodes.nodeCount) (target : Nat) :
    (weightsArriving trace source target).Perm
      (((batches.flatMap (offers nodes s)).filter (s.produces source target)).map (·.weight)) := by
  have hstored : weightsBetween source target (storedBy nodes s batches) =
      ((batches.flatMap (offers nodes s)).filter (s.produces source target)).map (·.weight) := by
    rw [storedBy, weightsBetween_flatMap]
    simp only [weightsBetween_fanOut]
    induction batches.flatMap (offers nodes s) with
    | nil => rfl
    | cons offer offers ih =>
      rw [List.flatMap_cons, ih]
      by_cases hproduces : s.produces source target offer = true
      · rw [if_pos hproduces, List.filter_cons_of_pos hproduces]
        rfl
      · rw [if_neg hproduces, List.filter_cons_of_neg hproduces, List.nil_append]
  rw [← h.weightsBetween_arrivedAt, ← hstored, ← weightsBetween_filter rfl target (storedBy nodes s batches)]
  exact perm_weightsBetween (h.perm_arrivedAt (Intake.bucketOf_lt s hsource)) source target

/-- Whatever the interleaving, something is built, and the weights towards a target are what the aggregation
keeps of those that arrive, in the order in which they do. -/
theorem Interleaves.exists_build (hnodes : nodes.Valid) (hreject : s.aggregation ≠ .reject)
    (hstores : s.storesWeights = true) (hconcurrency : 1 ≤ s.concurrency)
    (h : Interleaves (batches.map (Batch.handOvers nodes s)) trace) :
    ∃ r, (Intake.afterAppends nodes s trace).build = .ok r ∧
      ∀ source < nodes.nodeCount, ∀ target fallback, weightsTo target (r.weighted source fallback) =
        s.aggregation.kept (weightsArriving trace source target) := by
  have hledger := Intake.keepsLedger_afterAppends h
  have hdense := h.allBelow_arrivedAll hnodes
  obtain ⟨r, hbuild⟩ := hledger.exists_build hdense hconcurrency hreject
  refine ⟨r, hbuild, fun source hsource target fallback => ?_⟩
  rw [(Relationships.makesRow_weighted hledger hnodes hdense hbuild hstores hsource fallback).weights,
    ← h.weightsBetween_arrivedAt, ← h.filter_arrivedAll (Intake.bucketOf_lt s hsource), weightsBetween_filter rfl]

/-- Both directions are stored with their weight, and each of two nodes has a bucket of its own. -/
def pairSettings : RelationshipSettings := { orientation := .undirected, weighted := true, concurrency := 2 }

/-- Two relationships between the same two nodes, in two batches. -/
def parallelPair : List (List Call) := [[.addDenseTo 0 0 1 1], [.addDenseTo 1 0 1 2]]

/-- What a batch appends to the bucket of a node. -/
def appendTo (node batch : Nat) (weight : Float) : BucketAppend :=
  ⟨batch, 0, ⟨node, #[⟨node, 1 - node, weight⟩]⟩⟩

/-- Either batch appends to the first bucket and then to the second. -/
theorem interleaves_parallelPair {trace : List BucketAppend}
    (h : ∀ batch : Nat, trace.filter (·.batch == batch) =
      [[appendTo 0 0 1, appendTo 1 0 1], [appendTo 0 1 2, appendTo 1 1 2]][batch]?.getD []) :
    Interleaves (parallelPair.map (Batch.handOvers (.identity 2) pairSettings)) trace
  | 0 => h 0
  | 1 => h 1
  | batch + 2 => h (batch + 2)

end PackedGraph
