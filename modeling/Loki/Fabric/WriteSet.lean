import Loki.Fabric.TxOps

/-!
# The writes of a transaction, applied

What `ApplyWriteSet` makes of the batch of updates, compared with a ledger to which the writes of
a transaction are applied at once.
-/

namespace Loki.Fabric

open Loki.Foundation List KeyOps Prod TxOps

/-! ## One map of all keys -/

def DB.get (db : DB) (ck : CompositeKey) : Option VersionedValue :=
  if ck.coll = [] then db.getState ck.ns ck.key else db.getValueHash ck.ns ck.coll ck.key

variable {ck : CompositeKey} {txops : TxOps}

theorem DB.get_isSome (db : DB) {vv : VersionedValue} (h : db.get ck = some vv) :
    vv.isDelete = false := by
  have hvalue : vv.value.isSome = true := by
    unfold DB.get at h
    split at h
    · exact db.value_isSome h
    · exact db.hashedValue_isSome h
  rw [VersionedValue.isDelete, Option.isNone_eq_false_iff]
  exact hvalue

namespace PubAndHashUpdates

variable (u : PubAndHashUpdates)

def get (ck : CompositeKey) : Option VersionedValue :=
  if ck.coll = [] then u.pubUpdates.get ck.ns ck.key else u.hashUpdates.get ck.ns ck.coll ck.key

def set (ck : CompositeKey) (vv : VersionedValue) : PubAndHashUpdates :=
  if ck.coll = [] then { u with pubUpdates := u.pubUpdates.update ck.ns ck.key vv }
  else { u with hashUpdates := ⟨u.hashUpdates.batches.insert ck.ns
    ((u.hashUpdates.getOrCreateNsBatch ck.ns).update ck.coll ck.key vv)⟩ }

theorem get_set (ck ck' : CompositeKey) (vv : VersionedValue) :
    (u.set ck vv).get ck' = if ck = ck' then some vv else u.get ck' := by
  obtain ⟨_, coll, _⟩ := ck
  obtain ⟨_, coll', _⟩ := ck'
  unfold set get
  by_cases hcoll : coll = []
  · subst hcoll
    by_cases hcoll' : coll' = []
    · subst hcoll'
      simp [UpdateBatch.get_update]
    · simp [hcoll', Ne.symm hcoll']
  · by_cases hcoll' : coll' = []
    · subst hcoll'
      simp [hcoll]
    · simp [if_neg hcoll, if_neg hcoll', UpdateMap.get_insert, CompositeKey.mk.injEq]

end PubAndHashUpdates

section

variable (u : PubAndHashUpdates) (db : DB) (ck : CompositeKey)

theorem retrieveLatestState_eq : retrieveLatestState u db ck = (u.get ck).or (db.get ck) := by
  unfold retrieveLatestState PubAndHashUpdates.get DB.get
  split
  · cases u.pubUpdates.get ck.ns ck.key <;> rfl
  · cases u.hashUpdates.get ck.ns ck.coll ck.key <;> rfl

theorem retrieveLatestMetadata_eq :
    retrieveLatestMetadata u db ck = ((u.get ck).or (db.get ck)).bind (·.metadata) := by
  unfold retrieveLatestMetadata PubAndHashUpdates.get DB.get
  split
  · rw [DB.getStateMetadata_eq]
    cases u.pubUpdates.get ck.ns ck.key <;> rfl
  · rw [DB.getPrivateDataMetadataByHash_eq]
    cases u.hashUpdates.get ck.ns ck.coll ck.key <;> rfl

end

/-! ## The batch after a write set -/

theorem lookup_eq_some_iff (hnodup : (txops.map fst).Nodup) {keyops} :
    txops.lookup ck = some keyops ↔ (ck, keyops) ∈ txops := by
  induction txops with
  | nil => simp
  | cons op txops ih =>
    rw [map_cons, nodup_cons] at hnodup
    rw [lookup_cons, mem_cons]
    by_cases hck : ck = op.1
    · subst hck
      have hnot : (op.1, keyops) ∉ txops := fun h => hnodup.1 (mem_map.mpr ⟨_, h, rfl⟩)
      simp [hnot, Prod.ext_iff, eq_comm]
    · simp [beq_false_of_ne hck, ih hnodup.2, Prod.ext_iff, hck]

theorem lookup_eq_none (h : ck ∉ txops.map fst) : txops.lookup ck = none := by
  rw [lookup_eq_none_iff]
  intro _ hop
  rw [bne_iff_ne]
  rintro rfl
  exact h (mem_map_of_mem hop)

inductive KeyOutcome where
  | delete
  | put (value metadata : Option Bytes)
  deriving DecidableEq, Repr

def KeyOutcome.applied (txHeight : Height) : KeyOutcome → VersionedValue
  | .delete => ⟨none, none, txHeight⟩
  | .put value metadata => ⟨value, metadata, txHeight⟩

def KeyOutcome.isAllowed : KeyOutcome → Bool
  | .delete => true
  | .put value _ => value.isSome

def KeyOps.outcome (keyops : KeyOps) : KeyOutcome :=
  if keyops.isDelete then .delete else .put keyops.value keyops.metadata

namespace PubAndHashUpdates

variable {txHeight : Height}

theorem applyKeyOps_eq (u : PubAndHashUpdates) (ck : CompositeKey) (keyops) :
    applyKeyOps txHeight u (ck, keyops) =
      if keyops.outcome.isAllowed then .ok (u.set ck (keyops.outcome.applied txHeight))
      else .error (.panic "Nil value not allowed. Instead call 'Delete' function") := by
  unfold applyKeyOps outcome set
  simp only [UpdateMap.delete, UpdateMap.putValAndMetadata, UpdateBatch.delete,
    UpdateBatch.putValAndMetadata]
  cases keyops.isDelete with
  | true =>
    by_cases hcoll : ck.coll = []
    · simp only [if_pos hcoll, if_true, KeyOutcome.isAllowed, KeyOutcome.applied]
    · simp only [if_neg hcoll, if_true, KeyOutcome.isAllowed, KeyOutcome.applied]
  | false =>
    cases keyops.value with
    | none => simp [bind, Except.bind, KeyOutcome.isAllowed]
    | some =>
      by_cases hcoll : ck.coll = [] <;>
        simp [hcoll, bind, Except.bind, KeyOutcome.isAllowed, KeyOutcome.applied]

theorem foldlM_applyKeyOps (txops : TxOps) (u : PubAndHashUpdates) :
    txops.foldlM (applyKeyOps txHeight) u =
      if txops.all (·.2.outcome.isAllowed) then
        .ok (txops.foldl (fun u op => u.set op.1 (op.2.outcome.applied txHeight)) u)
      else .error (.panic "Nil value not allowed. Instead call 'Delete' function") := by
  induction txops generalizing u with
  | nil => rfl
  | cons op _ ih =>
    obtain ⟨_, keyops⟩ := op
    rw [foldlM_cons, applyKeyOps_eq, all_cons, foldl_cons]
    cases keyops.outcome.isAllowed with
    | false => simp [bind, Except.bind]
    | true => exact ih _

theorem get_foldl_set {txops : TxOps} (hnodup : (txops.map fst).Nodup)
    (u : PubAndHashUpdates) (ck : CompositeKey) :
    (txops.foldl (fun u op => u.set op.1 (op.2.outcome.applied txHeight)) u).get ck =
      ((txops.lookup ck).map (·.outcome.applied txHeight)).or (u.get ck) := by
  induction txops generalizing u with
  | nil => rfl
  | cons op _ ih =>
    obtain ⟨ck', _⟩ := op
    rw [map_cons, nodup_cons] at hnodup
    rw [foldl_cons, ih hnodup.2, get_set, lookup_cons]
    by_cases hck : ck' = ck
    · subst hck
      simp [lookup_eq_none hnodup.1]
    · simp [hck, beq_false_of_ne (Ne.symm hck)]

end PubAndHashUpdates

theorem keys_filterMap_sublist (f : CompositeKey → KeyOps → Option KeyOps) (txops : TxOps) :
    ((txops.filterMap fun (ck, keyop) => (f ck keyop).map fun keyop => (ck, keyop)).map
      fst).Sublist (txops.map fst) := by
  induction txops with
  | nil => exact .slnil
  | cons op _ ih =>
    obtain ⟨ck, keyop⟩ := op
    rw [filterMap_cons, map_cons]
    dsimp only
    cases f ck keyop with
    | none => exact ih.cons _
    | some => exact ih.cons_cons _

theorem lookup_filterMap {f : CompositeKey → KeyOps → Option KeyOps}
    (hnodup : (txops.map fst).Nodup) (ck : CompositeKey) :
    (txops.filterMap fun (ck, keyop) => (f ck keyop).map fun keyop => (ck, keyop)).lookup ck =
      (txops.lookup ck).bind (f ck) := by
  induction txops with
  | nil => rfl
  | cons op _ ih =>
    obtain ⟨ck', keyop⟩ := op
    rw [map_cons, nodup_cons] at hnodup
    rw [filterMap_cons, lookup_cons]
    by_cases hck : ck = ck'
    · subst hck
      rw [lookup_eq_none hnodup.1] at ih
      cases hf : f ck keyop with
      | none => simpa [hf] using ih hnodup.2
      | some => simp [hf]
    · cases hf : f ck' keyop with
      | none => simpa [hf, beq_false_of_ne hck] using ih hnodup.2
      | some => simpa [hf, lookup_cons, beq_false_of_ne hck] using ih hnodup.2

/-- What a change puts into the batch; metadata is not written to a key that is not there. -/
def KeyChange.outcome (latest : Option VersionedValue) : KeyChange → Option KeyOutcome
  | ⟨some .delete, _⟩ => some .delete
  | ⟨some (.upsert value), metadata⟩ => some (.put value (metadata.getD (latest.bind (·.metadata))))
  | ⟨none, some metadata⟩ => latest.map fun vv => .put vv.value metadata
  | ⟨none, none⟩ => none

/-! ### The flags of the eight kinds of change -/

section

variable {u : PubAndHashUpdates} {db : DB} {ck : CompositeKey}

variable (flag : UInt8) (value metadata : Option Bytes)

theorem isDelete_mk :
    isDelete ⟨flag, value, metadata⟩ = (flag &&& 8 == 8) := rfl

theorem isUpsertAndMetadataUpdate_mk :
    isUpsertAndMetadataUpdate ⟨flag, value, metadata⟩ =
      (flag &&& 1 == 1 && (flag &&& 2 == 2 || flag &&& 4 == 4)) := by
  unfold isUpsertAndMetadataUpdate
  cases hupsert : flag &&& upsertVal == upsertVal <;> rw [upsertVal] at hupsert
    <;> rw [hupsert] <;> rfl

theorem outcome_of_isDelete {keyop : KeyOps} (hdelete : keyop.isDelete = true) :
    (prepareKeyOps u db ck keyop).map outcome = some .delete := by
  rw [prepareKeyOps, hdelete, Bool.true_or, if_pos rfl, Option.map_some, outcome, if_pos hdelete]

theorem outcome_of_both {flag : UInt8} (hflag : flag = 3 ∨ flag = 5)
    (value metadata : Option Bytes) :
    (prepareKeyOps u db ck ⟨flag, value, metadata⟩).map outcome = some (.put value metadata) := by
  have hdelete : (flag &&& 8 == 8) = false := by rcases hflag with rfl | rfl <;> decide
  have hboth : (flag &&& 1 == 1 && (flag &&& 2 == 2 || flag &&& 4 == 4)) = true := by
    rcases hflag with rfl | rfl <;> decide
  rw [prepareKeyOps, isUpsertAndMetadataUpdate_mk, hboth, Bool.or_true, if_pos rfl,
    Option.map_some, outcome, isDelete_mk, hdelete]
  rfl

theorem outcome_of_upsert (value metadata : Option Bytes) :
    (prepareKeyOps u db ck ⟨1, value, metadata⟩).map outcome =
      some (.put value (retrieveLatestMetadata u db ck)) := by
  have hdelete : ((1 : UInt8) &&& 8 == 8) = false := by decide
  have hboth : ((1 : UInt8) &&& 1 == 1 && ((1 : UInt8) &&& 2 == 2 || (1 : UInt8) &&& 4 == 4)) =
      false := by decide
  have honly : isOnlyUpsert ⟨1, value, metadata⟩ = true :=
    show ((1 : UInt8) ||| 1 == 1) = true by decide
  rw [prepareKeyOps, isDelete_mk, isUpsertAndMetadataUpdate_mk, hdelete, hboth, honly]
  simp [outcome, isDelete_mk, hdelete]

theorem outcome_of_metadata {flag : UInt8} (hflag : flag = 2 ∨ flag = 4)
    (value metadata : Option Bytes) :
    (prepareKeyOps u db ck ⟨flag, value, metadata⟩).map outcome =
      (retrieveLatestState u db ck).map fun latestVal => .put latestVal.value metadata := by
  have hdelete : (flag &&& 8 == 8) = false := by rcases hflag with rfl | rfl <;> decide
  have hboth : (flag &&& 1 == 1 && (flag &&& 2 == 2 || flag &&& 4 == 4)) = false := by
    rcases hflag with rfl | rfl <;> decide
  have honly : isOnlyUpsert ⟨flag, value, metadata⟩ = false := by
    change (flag ||| 1 == 1) = false
    rcases hflag with rfl | rfl <;> decide
  rw [prepareKeyOps, isDelete_mk, isUpsertAndMetadataUpdate_mk, hdelete, hboth, honly]
  simp only [Bool.or_self, Bool.false_eq_true, if_false]
  cases retrieveLatestState u db ck with
  | none => rfl
  | some => simp [outcome, isDelete_mk, hdelete]

theorem outcome_prepareKeyOps (change : KeyChange) :
    (change.keyOps.bind (prepareKeyOps u db ck)).map outcome =
      change.outcome ((u.get ck).or (db.get ck)) := by
  rw [KeyChange.outcome.eq_def, ← retrieveLatestMetadata_eq, ← retrieveLatestState_eq]
  obtain ⟨write, metadata⟩ := change
  match write, metadata with
  | none, none => rfl
  | none, some none => exact outcome_of_metadata (.inr rfl) none none
  | none, some (some metadata) => exact outcome_of_metadata (.inl rfl) none (some metadata)
  | some .delete, none => exact outcome_of_isDelete (show ((8 : UInt8) &&& 8 == 8) = true by decide)
  | some .delete, some none =>
    exact outcome_of_isDelete (show ((12 : UInt8) &&& 8 == 8) = true by decide)
  | some .delete, some (some metadata) =>
    exact outcome_of_isDelete (show ((10 : UInt8) &&& 8 == 8) = true by decide)
  | some (.upsert value), none => exact outcome_of_upsert value none
  | some (.upsert value), some none => exact outcome_of_both (.inr rfl) value none
  | some (.upsert value), some (some metadata) =>
    exact outcome_of_both (.inl rfl) value (some metadata)

end

section

variable {serializeMetadata : SerializeMetadata} {rwset : TxRwSet} {u u' : PubAndHashUpdates}
  {db : DB} {txHeight : Height}

theorem nodup_applyTxRwset : ((applyTxRwset serializeMetadata rwset).map fst).Nodup := by
  rw [applyTxRwset_eq]
  exact nodup_foldl_step _ nodup_nil

theorem nodup_prepareTxOps : ((prepareTxOps serializeMetadata rwset u db).map fst).Nodup := by
  have hnodup : ((applyTxRwset serializeMetadata rwset).map fst).Nodup := nodup_applyTxRwset
  exact hnodup.sublist (keys_filterMap_sublist ..)

def outcomeOf (serializeMetadata : SerializeMetadata) (rwset : TxRwSet) (u : PubAndHashUpdates)
    (db : DB) (ck : CompositeKey) : Option KeyOutcome :=
  (rwset.changeOf serializeMetadata ck).outcome ((u.get ck).or (db.get ck))

theorem lookup_prepareTxOps (h : rwset.AtMostOne) (ck : CompositeKey) :
    ((prepareTxOps serializeMetadata rwset u db).lookup ck).map outcome =
      outcomeOf serializeMetadata rwset u db ck := by
  rw [prepareTxOps, lookup_filterMap nodup_applyTxRwset, lookup_applyTxRwset h,
    outcome_prepareKeyOps, outcomeOf]

theorem mem_prepareTxOps (h : rwset.AtMostOne) {ck outcome} :
    outcomeOf serializeMetadata rwset u db ck = some outcome ↔
      ∃ keyops, (ck, keyops) ∈ prepareTxOps serializeMetadata rwset u db ∧
        keyops.outcome = outcome := by
  rw [← lookup_prepareTxOps h, Option.map_eq_some_iff]
  exact exists_congr fun _ => and_congr_left fun _ => lookup_eq_some_iff nodup_prepareTxOps

theorem applyWriteSet_eq : u.applyWriteSet serializeMetadata rwset txHeight db =
    if (prepareTxOps serializeMetadata rwset u db).all (·.2.outcome.isAllowed) then
      .ok ((prepareTxOps serializeMetadata rwset u db).foldl
        (fun u op => u.set op.1 (op.2.outcome.applied txHeight)) u)
    else .error (.panic "Nil value not allowed. Instead call 'Delete' function") :=
  PubAndHashUpdates.foldlM_applyKeyOps ..

theorem all_isAllowed_iff (h : rwset.AtMostOne) :
    (prepareTxOps serializeMetadata rwset u db).all (·.2.outcome.isAllowed) = true ↔
      ∀ ck outcome, outcomeOf serializeMetadata rwset u db ck = some outcome →
        outcome.isAllowed = true := by
  rw [all_eq_true]
  constructor
  · intro hall _ _ houtcome
    obtain ⟨_, hmem, rfl⟩ := (mem_prepareTxOps h).mp houtcome
    exact hall _ hmem
  · intro hall op hop
    exact hall op.1 _ ((mem_prepareTxOps h).mpr ⟨op.2, hop, rfl⟩)

theorem applyWriteSet_spec (h : rwset.AtMostOne) :
    ((∀ ck outcome, outcomeOf serializeMetadata rwset u db ck = some outcome →
        outcome.isAllowed = true) ∧
      ∃ u', u.applyWriteSet serializeMetadata rwset txHeight db = .ok u' ∧ ∀ ck, u'.get ck =
        ((outcomeOf serializeMetadata rwset u db ck).map (·.applied txHeight)).or (u.get ck)) ∨
    (u.applyWriteSet serializeMetadata rwset txHeight db =
        .error (.panic "Nil value not allowed. Instead call 'Delete' function") ∧
      ∃ ck outcome, outcomeOf serializeMetadata rwset u db ck = some outcome ∧
        outcome.isAllowed = false) := by
  rw [applyWriteSet_eq]
  by_cases hall : (prepareTxOps serializeMetadata rwset u db).all (·.2.outcome.isAllowed) = true
  · rw [if_pos hall]
    refine .inl ⟨(all_isAllowed_iff h).mp hall, _, rfl, fun ck => ?_⟩
    rw [PubAndHashUpdates.get_foldl_set nodup_prepareTxOps, ← lookup_prepareTxOps h, Option.map_map]
    rfl
  · rw [if_neg hall]
    refine .inr ⟨rfl, ?_⟩
    rw [all_isAllowed_iff h] at hall
    push Not at hall
    obtain ⟨ck, outcome, houtcome, hnot⟩ := hall
    exact ⟨ck, outcome, houtcome, Bool.eq_false_iff.mpr hnot⟩

end

/-! ## The ledger -/

/-- The keys that are there, and the height of the last transaction of the block that wrote a
key. -/
structure Ledger where
  store : CompositeKey → Option VersionedValue
  writer : CompositeKey → Option Height

namespace KeyChange

/-- A write replaces the value and keeps the metadata, a metadata write the other way round. -/
def store (change : KeyChange) (txHeight : Height) (entry : Option VersionedValue) :
    Option VersionedValue :=
  match change.write with
  | some .delete => none
  | some (.upsert value) => some ⟨value, change.metadata.getD (entry.bind (·.metadata)), txHeight⟩
  | none =>
    match change.metadata with
    | none => entry
    | some metadata => entry.map fun vv => ⟨vv.value, metadata, txHeight⟩

def touches (change : KeyChange) (entry : Option VersionedValue) : Bool :=
  change.write.isSome || change.metadata.isSome && entry.isSome

end KeyChange

def Ledger.apply (serializeMetadata : SerializeMetadata) (ledger : Ledger) (rwset : TxRwSet)
    (txHeight : Height) : Ledger where
  store := fun ck => (rwset.changeOf serializeMetadata ck).store txHeight (ledger.store ck)
  writer := fun ck =>
    if (rwset.changeOf serializeMetadata ck).touches (ledger.store ck) then some txHeight
    else ledger.writer ck

inductive KeyRepresents (committed : Option VersionedValue) :
    Option VersionedValue → Option VersionedValue → Option Height → Prop where
  | untouched : KeyRepresents committed none committed none
  | deleted (version : Height) :
      KeyRepresents committed (some ⟨none, none, version⟩) none (some version)
  | present (vv : VersionedValue) (h : vv.isDelete = false) :
      KeyRepresents committed (some vv) (some vv) (some vv.version)

def Represents (db : DB) (u : PubAndHashUpdates) (ledger : Ledger) : Prop :=
  ∀ ck, KeyRepresents (db.get ck) (u.get ck) (ledger.store ck) (ledger.writer ck)

namespace KeyRepresents

variable {committed batch store : Option VersionedValue} {writer : Option Height}

section

variable (h : KeyRepresents committed batch store writer)

include h

theorem store_eq_some {vv : VersionedValue} (hlatest : batch.or committed = some vv)
    (hvalue : vv.isDelete = false) : store = some vv := by
  cases h with
  | untouched | present => exact hlatest
  | deleted =>
    obtain rfl := Option.some.inj hlatest
    cases hvalue

theorem store_eq_none (hlatest : batch.or committed = none) : store = none := by
  cases h with
  | untouched => exact hlatest
  | deleted => rfl
  | present => cases hlatest

theorem metadata_eq : (batch.or committed).bind (·.metadata) = store.bind (·.metadata) := by
  cases h <;> rfl

end

end KeyRepresents

theorem keyRepresents_applied {committed batch store : Option VersionedValue}
    {writer} (change : KeyChange) (txHeight : Height)
    (h : KeyRepresents committed batch store writer)
    (hallowed : ∀ outcome, change.outcome (batch.or committed) = some outcome →
      outcome.isAllowed = true) :
    KeyRepresents committed
      (((change.outcome (batch.or committed)).map (·.applied txHeight)).or batch)
      (change.store txHeight store) (if change.touches store then some txHeight else writer) := by
  obtain ⟨write, metadata⟩ := change
  match write, metadata with
  | none, none => exact h
  | some .delete, _ => exact .deleted txHeight
  | some (.upsert value), metadata =>
    have hvalue : value.isSome = true := hallowed _ rfl
    rw [KeyChange.outcome, h.metadata_eq]
    exact .present _ (Option.isNone_eq_false_iff.mpr hvalue)
  | none, some metadata =>
    cases hlatest : batch.or committed with
    | none =>
      have hstore := h.store_eq_none hlatest
      subst hstore
      exact h
    | some latestVal =>
      have hvalue : latestVal.value.isSome = true := hallowed (.put latestVal.value metadata)
        (by rw [hlatest]; rfl)
      rw [h.store_eq_some hlatest (Option.isNone_eq_false_iff.mpr hvalue)]
      exact .present _ (Option.isNone_eq_false_iff.mpr hvalue)

theorem represents_applyWriteSet {serializeMetadata rwset u u' db ledger txHeight}
    (hone : rwset.AtMostOne) (h : Represents db u ledger)
    (hok : u.applyWriteSet serializeMetadata rwset txHeight db = .ok u') :
    Represents db u' (ledger.apply serializeMetadata rwset txHeight) := by
  rcases applyWriteSet_spec hone with ⟨hallowed, _, hok', hget⟩ | ⟨hpanic, -⟩
  · rw [hok'] at hok
    obtain rfl := Except.ok.inj hok
    intro ck
    rw [hget]
    exact keyRepresents_applied _ txHeight (h ck) (hallowed ck)
  · rw [hpanic] at hok
    cases hok

end Loki.Fabric
