import Mathlib.Data.List.Induction
import PackedGraph.Proofs.Graph.IdMap
import PackedGraph.Proofs.Ingest.Buckets
import PackedGraph.Proofs.Workers.Partition

/-!
# The ledger of an intake

A *ledger* follows the calls on an intake without partitions, buckets or buffers: it keeps one list of
the stored relationships that have arrived and, for every batch, one list of those that are held back.
An intake does what its ledger says: each bucket holds its part of what has arrived.

Main statements: `Intake.keepsLedger_serveAll` and `Intake.distributes_close` for the simulation,
`Ledger.perm_arrivals` for what arrives in the end.
-/

namespace PackedGraph

/-! ## What a call offers -/

/-- The relationship that a call offers, between dense ids.  A call that names an unknown node offers
none, and neither does a call that hands over. -/
def Call.offer? (nodes : IdMap) (s : RelationshipSettings) : Call → Option StoredRelationship
  | .add source target weight | .addTo _ source target weight =>
    (nodes.toDense? source).bind fun source => (nodes.toDense? target).map fun target =>
      ⟨source, target, weight.getD s.defaultWeight⟩
  | .addDenseTo _ source target weight =>
    if source < nodes.nodeCount ∧ target < nodes.nodeCount then some ⟨source, target, weight⟩ else none
  | .flush _ => none

/-- The batch that a call goes to. -/
def Call.batch? : Call → Option Nat
  | .add .. => none
  | .addTo batch .. | .addDenseTo batch .. | .flush batch => some batch

/-- What an offer is stored as. -/
def RelationshipSettings.fanOut (s : RelationshipSettings) (offer : StoredRelationship) :
    List StoredRelationship :=
  s.stored offer.source offer.target offer.weight

/-- Whether an offer produces the pair of two nodes, in this order. -/
def RelationshipSettings.produces (s : RelationshipSettings) (source target : Nat)
    (offer : StoredRelationship) : Bool :=
  (offer.source ≠ offer.target || s.allowSelfLoops) &&
    match s.orientation with
    | .natural => offer.source = source && offer.target = target
    | .reverse => offer.target = source && offer.source = target
    | .undirected => (offer.source = source && offer.target = target) ||
        (offer.target = source && offer.source = target)

/-- An offer is stored as a pair once if it produces the pair, and else not at all. -/
theorem countP_fanOut (s : RelationshipSettings) (source target : Nat)
    (offer : StoredRelationship) :
    ((s.fanOut offer).countP fun r => r.source == source && r.target == target) =
      if s.produces source target offer then 1 else 0 := by
  rw [RelationshipSettings.fanOut, RelationshipSettings.stored, RelationshipSettings.produces]
  by_cases hdropped : offer.source = offer.target ∧ ¬ s.allowSelfLoops
  · rw [if_pos hdropped]
    simp [hdropped.1, hdropped.2]
  · rw [if_neg hdropped]
    have hkept : (decide (offer.source ≠ offer.target) || s.allowSelfLoops) = true := by
      by_cases heq : offer.source = offer.target <;> simp_all
    rw [hkept, Bool.true_and, List.countP_map]
    cases s.orientation with
    | natural => simp [Orientation.stored, List.countP_singleton]
    | reverse => simp [Orientation.stored, List.countP_singleton]
    | undirected =>
      by_cases hloop : offer.source = offer.target
      · rw [Orientation.stored, if_pos hloop, List.countP_singleton]
        simp [hloop]
      · rw [Orientation.stored, if_neg hloop, List.countP_cons, List.countP_singleton]
        -- The two directions are different pairs, so at most one of them is asked for.
        by_cases hforth : offer.source = source ∧ offer.target = target
        · simp [hforth]
          omega
        · simp [hforth]

/-! ## Ledgers -/

/-- What has arrived, and what the batches hold back. -/
structure Ledger where
  /-- The stored relationships that have arrived, in order. -/
  arrived : List StoredRelationship
  /-- Those that each batch holds back. -/
  held : List (List StoredRelationship)
  deriving Inhabited

namespace Ledger

/-- Nothing has arrived, and so many batches are empty. -/
def opened (batches : Nat) : Ledger := ⟨[], List.replicate batches []⟩

/-- A batch hands over. -/
def release (l : Ledger) (batch : Nat) : Ledger :=
  ⟨l.arrived ++ l.held[batch]?.getD [], l.held.set batch []⟩

/-- A batch is given more, and hands over if it holds as much as it may. -/
def hold (capacity : Nat) (l : Ledger) (batch : Nat) (relationships : List StoredRelationship) :
    Ledger :=
  let l : Ledger := ⟨l.arrived, l.held.modify batch (· ++ relationships)⟩
  if capacity ≤ (l.held[batch]?.getD []).length then l.release batch else l

/-- Note down a call. -/
def note (nodes : IdMap) (s : RelationshipSettings) (l : Ledger) (call : Call) : Ledger :=
  match call.offer? nodes s with
  | some offer =>
    match call.batch? with
    | none => ⟨l.arrived ++ s.fanOut offer, l.held⟩
    | some batch => l.hold (max s.batchSize 1) batch (s.fanOut offer)
  | none =>
    match call with
    | .flush batch => l.release batch
    | _ => l

/-- What has arrived when all batches have handed over. -/
def closed (l : Ledger) : List StoredRelationship := l.arrived ++ l.held.flatten

end Ledger

/-- What arrives at an intake in the end, in order, from calls that may be refused. -/
def arrivals (nodes : IdMap) (s : RelationshipSettings) (batches : Nat) (calls : List Call) :
    List StoredRelationship :=
  (calls.foldl (Ledger.note nodes s) (.opened batches)).closed

namespace Intake

/-- Answer a call; one that is refused leaves everything as it was. -/
def serve (t : Intake) (call : Call) : Intake :=
  match t.call call with
  | .ok t => t
  | .error _ => t

/-- Answer calls in order, whether or not some are refused. -/
def serveAll (t : Intake) (calls : List Call) : Intake := calls.foldl serve t

/-! ## One call -/

/-- A call that offers a relationship is accepted. -/
theorem call_of_offer {t : Intake} {call : Call} {offer : StoredRelationship}
    (h : call.offer? t.nodes t.settings = some offer) :
    t.call call = .ok (match call.batch? with
      | none => t.store (t.settings.fanOut offer)
      | some batch => t.buffer batch (t.settings.fanOut offer)) := by
  cases call with
  | add source target weight | addTo batch source target weight =>
    rw [Call.offer?, Option.bind_eq_some_iff] at h
    obtain ⟨denseSource, hsource, h⟩ := h
    rw [Option.map_eq_some_iff] at h
    obtain ⟨denseTarget, htarget, rfl⟩ := h
    rw [Intake.call, accept, resolve, hsource, resolve, htarget]
    rfl
  | addDenseTo batch source target weight =>
    rw [Call.offer?, Option.ite_none_right_eq_some] at h
    obtain ⟨⟨hsource, htarget⟩, h⟩ := h
    obtain rfl := Option.some.inj h
    rw [Intake.call, checkDense, checkDense, if_pos hsource, if_pos htarget]
    rfl
  | flush batch => exact absurd h (by simp [Call.offer?])

/-- A call that offers none is refused, unless it hands over. -/
theorem call_of_no_offer {t : Intake} {call : Call} (h : call.offer? t.nodes t.settings = none)
    (hflush : ∀ batch, call ≠ .flush batch) : ∃ node, t.call call = .error (.unknownNode node) := by
  cases call with
  | add source target weight | addTo batch source target weight =>
    rw [Intake.call, accept, resolve, resolve]
    cases hsource : t.nodes.toDense? source with
    | none => exact ⟨_, rfl⟩
    | some denseSource =>
      rw [Call.offer?, hsource, Option.bind_some, Option.map_eq_none_iff] at h
      rw [h]
      exact ⟨_, rfl⟩
  | addDenseTo batch source target weight =>
    rw [Call.offer?, ite_eq_right_iff] at h
    rw [Intake.call, checkDense, checkDense]
    by_cases hsource : source < t.nodes.nodeCount
    · rw [if_pos hsource, if_neg fun htarget => absurd (h ⟨hsource, htarget⟩) (by simp)]
      exact ⟨_, rfl⟩
    · rw [if_neg hsource]
      exact ⟨_, rfl⟩
  | flush batch => exact absurd rfl (hflush batch)

/-- A call is refused just if it offers nothing and does not hand over either. -/
theorem refused_iff {t : Intake} {call : Call} :
    (∃ node, t.call call = .error (.unknownNode node)) ↔
      call.offer? t.nodes t.settings = none ∧ ∀ batch, call ≠ .flush batch := by
  constructor
  · rintro ⟨node, hrefused⟩
    refine ⟨?_, fun batch hflush => ?_⟩
    · cases hoffer : call.offer? t.nodes t.settings with
      | none => rfl
      | some offer =>
        rw [call_of_offer hoffer] at hrefused
        exact absurd hrefused (by simp)
    · rw [hflush] at hrefused
      exact absurd hrefused (by simp [Intake.call])
  · rintro ⟨hoffer, hflush⟩
    exact call_of_no_offer hoffer hflush

/-! ## The intake does what its ledger says -/

/-- An intake whose buckets and batches hold what a ledger says. -/
structure KeepsLedger (nodes : IdMap) (s : RelationshipSettings) (t : Intake) (l : Ledger) : Prop where
  /-- The nodes are as given. -/
  nodes_eq : t.nodes = nodes
  /-- The settings are as given. -/
  settings_eq : t.settings = s
  /-- The partitions are those for the nodes and settings. -/
  partitions_eq : t.partitions = rangePartition nodes.nodeCount (max s.concurrency 1)
  /-- Each bucket holds its part of what has arrived. -/
  buckets : Distributes t.bucketOf t.partitions.length t.buckets l.arrived
  /-- Each batch holds what it holds back. -/
  batches : ∀ batch : Nat,
    Option.Rel (Batch.Holds t.bucketOf t.partitions.length) t.batches[batch]? l.held[batch]?

variable {nodes : IdMap} {s : RelationshipSettings} {t : Intake} {l : Ledger}

theorem keepsLedger_new (nodes : IdMap) (s : RelationshipSettings) (batches : Nat) :
    KeepsLedger nodes s (.new nodes s batches) (.opened batches) := by
  refine ⟨rfl, rfl, rfl, distributes_replicate _ _, fun batch => ?_⟩
  rw [Ledger.opened, Intake.new, Array.getElem?_replicate, List.getElem?_replicate]
  split
  · exact .some (Batch.holds_new _ _)
  · exact .none

/-- Storing delivers one by one. -/
theorem store_eq (t : Intake) (relationships : List StoredRelationship) :
    t.store relationships = (relationships.map fun r => ⟨t.bucketOf r.source, #[r]⟩).foldl deliver t := by
  induction relationships generalizing t with
  | nil => rfl
  | cons r relationships ih => exact ih (t.deliver ⟨t.bucketOf r.source, #[r]⟩)

/-- What is stored at once has arrived. -/
theorem KeepsLedger.store (h : KeepsLedger nodes s t l) (relationships : List StoredRelationship) :
    KeepsLedger nodes s (t.store relationships) ⟨l.arrived ++ relationships, l.held⟩ := by
  rw [store_eq, foldl_deliver]
  exact ⟨h.nodes_eq, h.settings_eq, h.partitions_eq,
    h.buckets.foldl_receive fun bucket _ => broughtTo_map_singleton bucket relationships, h.batches⟩

/-- A batch that hands over is empty, and what it held has arrived. -/
theorem KeepsLedger.flush (h : KeepsLedger nodes s t l) (batch : Nat) :
    KeepsLedger nodes s (t.flush batch) (l.release batch) := by
  have hbatch := h.batches batch
  generalize hopen : t.batches[batch]? = b, hheld : l.held[batch]? = held at hbatch
  rw [Intake.flush, Ledger.release, hopen, hheld]
  cases hbatch with
  | none =>
    rw [List.set_eq_of_length_le (List.getElem?_eq_none_iff.mp hheld), Option.getD_none,
      List.append_nil]
    exact h
  | some hholds =>
    simp only [Option.getD_some, foldl_deliver]
    refine ⟨h.nodes_eq, h.settings_eq, h.partitions_eq,
      h.buckets.foldl_receive fun bucket hbucket => hholds.broughtTo_deliveries hbucket, fun other => ?_⟩
    by_cases heq : batch = other
    · subst heq
      rw [Array.getElem?_setIfInBounds_self_of_lt (Array.getElem?_eq_some_iff.mp hopen).1,
        List.getElem?_set_self (List.getElem?_eq_some_iff.mp hheld).1]
      exact .some (Batch.holds_new _ _)
    · rw [Array.getElem?_setIfInBounds_ne heq, List.getElem?_set_ne heq]
      exact h.batches other

/-- A batch is full when it holds back as much as it may. -/
theorem KeepsLedger.isFull_eq (h : KeepsLedger nodes s t l) (batch : Nat) :
    t.isFull batch = decide (max s.batchSize 1 ≤ (l.held[batch]?.getD []).length) := by
  have hbatch := h.batches batch
  rw [isFull, h.settings_eq]
  generalize t.batches[batch]? = b, l.held[batch]? = held at hbatch ⊢
  cases hbatch with
  | none => simp
  | some hholds => simp only [hholds.buffered_eq, Option.getD_some]

/-- A batch that is full hands over. -/
theorem KeepsLedger.flush_if_full (h : KeepsLedger nodes s t l) (batch : Nat) :
    KeepsLedger nodes s (if t.isFull batch then t.flush batch else t)
      (if max s.batchSize 1 ≤ (l.held[batch]?.getD []).length then l.release batch else l) := by
  rw [h.isFull_eq]
  by_cases hfull : max s.batchSize 1 ≤ (l.held[batch]?.getD []).length
  · rw [if_pos (decide_eq_true hfull), if_pos hfull]
    exact h.flush batch
  · rw [if_neg (by simpa using hfull), if_neg hfull]
    exact h

/-- A batch that is given more holds it, and hands over when it is full. -/
theorem KeepsLedger.buffer (h : KeepsLedger nodes s t l) (batch : Nat)
    (relationships : List StoredRelationship) :
    KeepsLedger nodes s (t.buffer batch relationships) (l.hold (max s.batchSize 1) batch relationships) := by
  have hpushed : KeepsLedger nodes s
      { t with batches := t.batches.modify batch (·.push t.bucketOf relationships) }
      ⟨l.arrived, l.held.modify batch (· ++ relationships)⟩ := by
    refine ⟨h.nodes_eq, h.settings_eq, h.partitions_eq, h.buckets, fun other => ?_⟩
    have hother := h.batches other
    rw [Array.getElem?_modify, List.getElem?_modify]
    generalize t.batches[other]? = b, l.held[other]? = held at hother ⊢
    by_cases heq : batch = other
    · simp only [if_pos heq]
      cases hother with
      | none => exact .none
      | some hholds => exact .some (hholds.push relationships)
    · simp only [if_neg heq]
      cases hother with
      | none => exact .none
      | some hholds => exact .some hholds
  exact hpushed.flush_if_full batch

/-- A call is noted down as it is answered. -/
theorem KeepsLedger.serve (h : KeepsLedger nodes s t l) (call : Call) :
    KeepsLedger nodes s (t.serve call) (l.note nodes s call) := by
  rw [Intake.serve, Ledger.note.eq_def]
  cases hoffer : call.offer? nodes s with
  | some offer =>
    rw [← h.nodes_eq, ← h.settings_eq] at hoffer
    rw [call_of_offer hoffer, h.settings_eq]
    cases call.batch? with
    | none => exact h.store _
    | some batch => exact h.buffer batch _
  | none =>
    by_cases hflush : ∃ batch, call = .flush batch
    · obtain ⟨batch, rfl⟩ := hflush
      exact h.flush batch
    · have hother : ∀ batch, call ≠ .flush batch := fun batch heq => hflush ⟨batch, heq⟩
      rw [← h.nodes_eq, ← h.settings_eq] at hoffer
      obtain ⟨node, hrefused⟩ := call_of_no_offer hoffer hother
      rw [hrefused]
      cases call with
      | flush batch => exact absurd rfl (hother batch)
      | add | addTo | addDenseTo => exact h

/-- After any calls the intake holds what its ledger says. -/
theorem keepsLedger_serveAll (nodes : IdMap) (s : RelationshipSettings) (batches : Nat)
    (calls : List Call) :
    KeepsLedger nodes s ((Intake.new nodes s batches).serveAll calls)
      (calls.foldl (Ledger.note nodes s) (.opened batches)) := by
  induction calls using List.reverseRecOn with
  | nil => exact keepsLedger_new nodes s batches
  | append_singleton calls call ih =>
    rw [serveAll, List.foldl_append, List.foldl_append]
    exact ih.serve call

/-- Calls that offer something or hand over are all answered. -/
theorem callAll_new {batches : Nat} {calls : List Call}
    (h : ∀ call ∈ calls, (∃ offer, call.offer? nodes s = some offer) ∨ ∃ batch, call = .flush batch) :
    (Intake.new nodes s batches).callAll calls = .ok ((Intake.new nodes s batches).serveAll calls) := by
  induction calls using List.reverseRecOn with
  | nil => rfl
  | append_singleton calls call ih =>
    have hbefore := ih fun other hother => h other (List.mem_append_left _ hother)
    have hledger := keepsLedger_serveAll nodes s batches calls
    have hcall : ((Intake.new nodes s batches).serveAll calls).call call =
        .ok (((Intake.new nodes s batches).serveAll calls).serve call) := by
      rcases h call (by simp) with ⟨offer, hoffer⟩ | ⟨batch, rfl⟩
      · rw [serve, @call_of_offer _ call offer (by rwa [hledger.nodes_eq, hledger.settings_eq])]
      · rfl
    have hserve : (Intake.new nodes s batches).serveAll (calls ++ [call]) =
        ((Intake.new nodes s batches).serveAll calls).serve call := by
      simp only [serveAll, List.foldl_append, List.foldl_cons, List.foldl_nil]
    rw [callAll] at hbefore
    rw [callAll, List.foldlM_append, hbefore, hserve, ← hcall]
    change List.foldlM Intake.call _ [call] = _
    simp only [List.foldlM_cons, List.foldlM_nil, bind_pure]

/-! ## Closing -/

/-- There are as many batches as the ledger has lists for. -/
theorem KeepsLedger.size_batches (h : KeepsLedger nodes s t l) :
    t.batches.size = l.held.length := by
  refine Nat.le_antisymm ?_ ?_
  · have hend := h.batches l.held.length
    rw [List.getElem?_eq_none (Nat.le_refl _)] at hend
    generalize hopen : t.batches[l.held.length]? = b at hend
    cases hend
    exact Array.getElem?_eq_none_iff.mp hopen
  · have hend := h.batches t.batches.size
    rw [Array.getElem?_eq_none (Nat.le_refl _)] at hend
    generalize hheld : l.held[t.batches.size]? = held at hend
    cases hend
    exact List.getElem?_eq_none_iff.mp hheld

/-- Batches that hand over one after the other. -/
theorem foldl_release_range (l : Ledger) (count : Nat) :
    ((List.range count).foldl Ledger.release l).arrived = l.arrived ++ (l.held.take count).flatten ∧
      ∀ batch : Nat, count ≤ batch →
        ((List.range count).foldl Ledger.release l).held[batch]? = l.held[batch]? := by
  induction count with
  | zero => exact ⟨by simp, fun _ _ => rfl⟩
  | succ count ih =>
    obtain ⟨harrived, hheld⟩ := ih
    rw [List.range_succ, List.foldl_append, List.foldl_cons, List.foldl_nil, Ledger.release]
    refine ⟨?_, fun batch hbatch => ?_⟩
    · rw [harrived, hheld count (Nat.le_refl _), List.take_add_one, List.flatten_append,
        List.append_assoc]
      cases l.held[count]? <;> simp
    · rw [List.getElem?_set_ne (by omega)]
      exact hheld batch (by omega)

/-- When all batches are closed, all that was held back has arrived. -/
theorem KeepsLedger.close (h : KeepsLedger nodes s t l) :
    KeepsLedger nodes s t.close ⟨l.closed, []⟩ := by
  have hflushed : ∀ count, KeepsLedger nodes s ((List.range count).foldl Intake.flush t)
      ((List.range count).foldl Ledger.release l) := by
    intro count
    induction count with
    | zero => exact h
    | succ count ih =>
      rw [List.range_succ, List.foldl_append, List.foldl_append]
      exact ih.flush count
  have hall := hflushed t.batches.size
  have hbuckets := hall.buckets
  rw [(foldl_release_range l _).1, h.size_batches, List.take_length] at hbuckets
  refine ⟨hall.nodes_eq, hall.settings_eq, hall.partitions_eq, ?_, fun batch => .none⟩
  rw [Intake.close, h.size_batches]
  exact hbuckets

/-- A closed intake holds what has arrived in the end. -/
theorem keepsLedger_close (nodes : IdMap) (s : RelationshipSettings) (batches : Nat)
    (calls : List Call) :
    KeepsLedger nodes s ((Intake.new nodes s batches).serveAll calls).close
      ⟨arrivals nodes s batches calls, []⟩ :=
  (keepsLedger_serveAll nodes s batches calls).close

end Intake

/-! ## What arrives in the end -/

/-- The relationships that calls offer. -/
def offers (nodes : IdMap) (s : RelationshipSettings) (calls : List Call) :
    List StoredRelationship :=
  calls.filterMap (Call.offer? nodes s)

/-- A call goes to one of so many batches, if it goes to a batch at all. -/
def Call.NamesBatch (batches : Nat) (call : Call) : Prop := ∀ batch ∈ call.batch?, batch < batches

instance (batches : Nat) (call : Call) : Decidable (call.NamesBatch batches) :=
  inferInstanceAs (Decidable (∀ batch ∈ call.batch?, batch < batches))

namespace Ledger

theorem perm_flatten_set {α : Type} (lists : List (List α)) (index : Nat) :
    (lists[index]?.getD [] ++ (lists.set index []).flatten).Perm lists.flatten := by
  induction lists generalizing index with
  | nil => exact .nil
  | cons first lists ih =>
    cases index with
    | zero => exact .refl _
    | succ index =>
      rw [List.getElem?_cons_succ, List.set_cons_succ, List.flatten_cons, List.flatten_cons]
      exact (List.perm_append_comm_assoc _ _ _).trans ((ih index).append_left first)

theorem perm_flatten_modify {α : Type} {lists : List (List α)} {index : Nat}
    (h : index < lists.length)
    (more : List α) : (lists.modify index (· ++ more)).flatten.Perm (lists.flatten ++ more) := by
  induction lists generalizing index with
  | nil => exact absurd h (Nat.not_lt_zero _)
  | cons first lists ih =>
    cases index with
    | zero =>
      rw [List.modify_zero_cons, List.flatten_cons, List.flatten_cons, List.append_assoc,
        List.append_assoc]
      exact List.perm_append_comm.append_left first
    | succ index =>
      rw [List.modify_succ_cons, List.flatten_cons, List.flatten_cons, List.append_assoc]
      exact (ih (Nat.lt_of_succ_lt_succ h)).append_left first

theorem perm_closed_release (l : Ledger) (batch : Nat) :
    (l.release batch).closed.Perm l.closed := by
  rw [release, closed, closed, List.append_assoc]
  exact (perm_flatten_set l.held batch).append_left l.arrived

theorem perm_closed_hold (capacity : Nat) (l : Ledger) {batch : Nat} (h : batch < l.held.length)
    (relationships : List StoredRelationship) :
    (l.hold capacity batch relationships).closed.Perm (l.closed ++ relationships) := by
  have hheld : (Ledger.mk l.arrived (l.held.modify batch (· ++ relationships))).closed.Perm
      (l.closed ++ relationships) := by
    rw [closed, closed, List.append_assoc]
    exact (perm_flatten_modify h relationships).append_left l.arrived
  rw [hold]
  simp only
  split
  · exact (perm_closed_release _ batch).trans hheld
  · exact hheld

theorem length_held_release (l : Ledger) (batch : Nat) :
    (l.release batch).held.length = l.held.length := by
  rw [release, List.length_set]

theorem length_held_note (nodes : IdMap) (s : RelationshipSettings) (l : Ledger) (call : Call) :
    (l.note nodes s call).held.length = l.held.length := by
  rw [note.eq_def]
  cases call.offer? nodes s with
  | some offer =>
    cases call.batch? with
    | none => rfl
    | some batch =>
      simp only [hold]
      split
      · rw [length_held_release, List.length_modify]
      · rw [List.length_modify]
  | none =>
    cases call with
    | flush batch => exact length_held_release l batch
    | add | addTo | addDenseTo => rfl

/-- Noting a call down adds what it offers. -/
theorem perm_closed_note {nodes : IdMap} {s : RelationshipSettings} {l : Ledger} {call : Call}
    (h : call.NamesBatch l.held.length) :
    (l.note nodes s call).closed.Perm (l.closed ++ (offers nodes s [call]).flatMap s.fanOut) := by
  rw [note.eq_def, offers]
  cases hoffer : call.offer? nodes s with
  | some offer =>
    rw [List.filterMap_cons_some hoffer, List.filterMap_nil, List.flatMap_singleton]
    cases hbatch : call.batch? with
    | none =>
      simp only [closed, List.append_assoc]
      exact List.perm_append_comm.append_left l.arrived
    | some batch => exact perm_closed_hold _ l (h batch hbatch) _
  | none =>
    rw [List.filterMap_cons_none hoffer, List.filterMap_nil, List.flatMap_nil, List.append_nil]
    cases call with
    | flush batch => exact perm_closed_release l batch
    | add | addTo | addDenseTo => exact .refl _

/-- Whatever the batches held back and whenever they handed over, what arrives in the end is what the
calls offered, nothing lost and nothing twice. -/
theorem perm_arrivals (nodes : IdMap) (s : RelationshipSettings) {batches : Nat} {calls : List Call}
    (h : ∀ call ∈ calls, call.NamesBatch batches) :
    (arrivals nodes s batches calls).Perm ((offers nodes s calls).flatMap s.fanOut) := by
  have hlength : ∀ calls : List Call,
      (calls.foldl (note nodes s) (.opened batches)).held.length = batches := by
    intro calls
    induction calls using List.reverseRecOn with
    | nil => exact List.length_replicate
    | append_singleton calls call ih =>
      rw [List.foldl_append, List.foldl_cons, List.foldl_nil, length_held_note, ih]
  rw [arrivals]
  induction calls using List.reverseRecOn with
  | nil =>
    rw [List.foldl_nil, opened, closed, List.flatten_replicate_nil]
    exact .nil
  | append_singleton calls call ih =>
    rw [List.foldl_append, offers, List.filterMap_append, List.flatMap_append]
    refine (perm_closed_note ?_).trans ((ih fun c hc => h c (List.mem_append_left _ hc)).append_right _)
    rw [hlength]
    exact h call (List.mem_append_right _ (List.mem_singleton_self call))

end Ledger

/-- Offers are between nodes. -/
theorem offer_lt {nodes : IdMap}
    (hnodes : ∀ external dense, nodes.toDense? external = some dense → dense < nodes.nodeCount)
    {s : RelationshipSettings} {call : Call} {offer : StoredRelationship}
    (h : call.offer? nodes s = some offer) :
    offer.source < nodes.nodeCount ∧ offer.target < nodes.nodeCount := by
  cases call with
  | add source target weight | addTo batch source target weight =>
    rw [Call.offer?, Option.bind_eq_some_iff] at h
    obtain ⟨denseSource, hsource, h⟩ := h
    rw [Option.map_eq_some_iff] at h
    obtain ⟨denseTarget, htarget, rfl⟩ := h
    exact ⟨hnodes _ _ hsource, hnodes _ _ htarget⟩
  | addDenseTo batch source target weight =>
    rw [Call.offer?, Option.ite_none_right_eq_some] at h
    obtain ⟨hlt, h⟩ := h
    obtain rfl := Option.some.inj h
    exact hlt
  | flush batch => exact absurd h (by simp [Call.offer?])

/-- Whatever the orientation, a pair that is stored is the given one or its converse. -/
theorem Orientation.mem_stored {orientation : Orientation} {source target : Nat} {pair : Nat × Nat}
    (h : pair ∈ orientation.stored source target) : pair = (source, target) ∨ pair = (target, source) := by
  cases orientation with
  | natural => exact Or.inl (List.mem_singleton.mp h)
  | reverse => exact Or.inr (List.mem_singleton.mp h)
  | undirected =>
    rw [Orientation.stored] at h
    split at h
    · exact Or.inl (List.mem_singleton.mp h)
    · simpa using h

/-- All relationships are between nodes below a bound. -/
def AllBelow (bound : Nat) (relationships : List StoredRelationship) : Prop :=
  ∀ r ∈ relationships, r.source < bound ∧ r.target < bound

/-- What an offer is stored as is between its ends. -/
theorem allBelow_fanOut {s : RelationshipSettings} {offer : StoredRelationship} {bound : Nat}
    (h : offer.source < bound ∧ offer.target < bound) : AllBelow bound (s.fanOut offer) := by
  intro r hr
  rw [RelationshipSettings.fanOut, RelationshipSettings.stored] at hr
  split at hr
  · exact absurd hr List.not_mem_nil
  · obtain ⟨pair, hpair, rfl⟩ := List.mem_map.mp hr
    rcases Orientation.mem_stored hpair with rfl | rfl
    · exact h
    · exact h.symm

/-- What is offered is stored between nodes. -/
theorem allBelow_offers {nodes : IdMap}
    (hnodes : ∀ external dense, nodes.toDense? external = some dense → dense < nodes.nodeCount)
    (s : RelationshipSettings) (calls : List Call) :
    AllBelow nodes.nodeCount ((offers nodes s calls).flatMap s.fanOut) := by
  intro r hr
  obtain ⟨offer, hoffer, hr⟩ := List.mem_flatMap.mp hr
  obtain ⟨call, -, hcall⟩ := List.mem_filterMap.mp hoffer
  exact allBelow_fanOut (offer_lt hnodes hcall) r hr

/-- What arrives is between nodes. -/
theorem allBelow_arrivals {nodes : IdMap} (hnodes : nodes.Valid) {s : RelationshipSettings}
    {batches : Nat} {calls : List Call} (h : ∀ call ∈ calls, call.NamesBatch batches) :
    AllBelow nodes.nodeCount (arrivals nodes s batches calls) := fun r hr =>
  allBelow_offers hnodes.dense_lt s calls r ((Ledger.perm_arrivals nodes s h).mem_iff.mp hr)

/-- A pair arrives as often as the accepted relationships produce it. -/
theorem countP_arrivals (nodes : IdMap) (s : RelationshipSettings) {batches : Nat}
    {calls : List Call} (h : ∀ call ∈ calls, call.NamesBatch batches) (source target : Nat) :
    (arrivals nodes s batches calls).countP (fun r => r.source == source && r.target == target) =
      (offers nodes s calls).countP (s.produces source target) := by
  rw [(Ledger.perm_arrivals nodes s h).countP_eq]
  generalize offers nodes s calls = accepted
  induction accepted with
  | nil => rfl
  | cons offer accepted ih =>
    rw [List.flatMap_cons, List.countP_append, countP_fanOut, ih, List.countP_cons, Nat.add_comm]

end PackedGraph
