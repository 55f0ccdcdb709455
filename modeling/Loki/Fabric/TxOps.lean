import Loki.Fabric.StateDB
import Mathlib.Data.List.Nodup

/-!
# Read-write sets and the operations they amount to

`kvrwset` and `rwsetutil` have the read-write set of a transaction, `validator/internal` turns its
writes into one operation for each key.  An absent message, slice of bytes or list of entries is
`none`.
-/

namespace Loki.Fabric

open Loki.Foundation List Prod

structure KVWrite where
  key : Bytes
  isDelete : Bool
  value : Option Bytes
  deriving DecidableEq, Repr

structure KVMetadataEntry where
  name : Bytes
  value : Option Bytes
  deriving DecidableEq, Repr

structure KVMetadataWrite where
  key : Bytes
  entries : Option (List KVMetadataEntry)
  deriving DecidableEq, Repr

structure KVReadHash where
  keyHash : Bytes
  version : Option Height
  deriving DecidableEq, Repr

structure KVWriteHash where
  keyHash : Bytes
  isDelete : Bool
  valueHash : Option Bytes
  deriving DecidableEq, Repr

structure KVMetadataWriteHash where
  keyHash : Bytes
  entries : Option (List KVMetadataEntry)
  deriving DecidableEq, Repr

inductive ReadsInfo where
  | rawReads (kvReads : List KVRead)
  | readsMerkleHashes (summary : QueryReadsMerkleSummary)
  deriving DecidableEq, Repr

structure RangeQueryInfo where
  startKey : Bytes
  endKey : Bytes
  itrExhausted : Bool
  readsInfo : Option ReadsInfo
  deriving DecidableEq, Repr

structure KVRWSet where
  reads : List KVRead := []
  rangeQueriesInfo : List RangeQueryInfo := []
  writes : List KVWrite := []
  metadataWrites : List KVMetadataWrite := []
  deriving DecidableEq, Repr

structure HashedRWSet where
  hashedReads : List KVReadHash := []
  hashedWrites : List KVWriteHash := []
  metadataWrites : List KVMetadataWriteHash := []
  deriving DecidableEq, Repr

structure CollHashedRwSet where
  collectionName : Bytes
  hashedRwSet : HashedRWSet
  deriving DecidableEq, Repr

structure NsRwSet where
  nameSpace : Bytes
  kvRwSet : KVRWSet := {}
  collHashedRwSets : List CollHashedRwSet := []
  deriving DecidableEq, Repr

structure TxRwSet where
  nsRwSets : List NsRwSet
  deriving DecidableEq, Repr

/-! ## The operations of a transaction -/

/-- `storageutil.SerializeMetadata` -/
abbrev SerializeMetadata := List KVMetadataEntry → Except String Bytes

structure CompositeKey where
  ns : Bytes
  coll : Bytes
  key : Bytes
  deriving DecidableEq, Repr

structure KeyOps where
  flag : UInt8 := 0
  value : Option Bytes := none
  metadata : Option Bytes := none
  deriving DecidableEq, Repr

namespace KeyOps

def upsertVal : UInt8 := 1
def metadataUpdate : UInt8 := 2
def metadataDelete : UInt8 := 4
def keyDelete : UInt8 := 8

def isDelete (keyops : KeyOps) : Bool := keyops.flag &&& keyDelete == keyDelete

def isUpsertAndMetadataUpdate (keyops : KeyOps) : Bool :=
  if keyops.flag &&& upsertVal == upsertVal then
    keyops.flag &&& metadataUpdate == metadataUpdate ||
      keyops.flag &&& metadataDelete == metadataDelete
  else false

def isOnlyUpsert (keyops : KeyOps) : Bool := keyops.flag ||| upsertVal == upsertVal

end KeyOps

abbrev TxOps := List (CompositeKey × KeyOps)

namespace TxOps

/-- `getOrCreateKeyEntry`, and what its callers do to the entry. -/
def modify (f : KeyOps → KeyOps) (k : CompositeKey) : TxOps → TxOps
  | [] => [(k, f {})]
  | (k', keyops) :: txops =>
    if k' = k then (k', f keyops) :: txops else (k', keyops) :: modify f k txops

variable (txops : TxOps) (k : CompositeKey)

def upsert (val : Option Bytes) : TxOps :=
  modify (fun keyops => { keyops with flag := keyops.flag + KeyOps.upsertVal, value := val }) k
    txops

def delete : TxOps :=
  modify (fun keyops => { keyops with flag := keyops.flag + KeyOps.keyDelete }) k txops

def metadataUpdate (metadata : Bytes) : TxOps :=
  modify (fun keyops => { keyops with
    flag := keyops.flag + KeyOps.metadataUpdate, metadata := some metadata }) k txops

def metadataDelete : TxOps :=
  modify (fun keyops => { keyops with flag := keyops.flag + KeyOps.metadataDelete }) k txops

def applyKVWrite (ns coll : Bytes) (txops : TxOps) (kvWrite : KVWrite) : TxOps :=
  if kvWrite.isDelete then txops.delete ⟨ns, coll, kvWrite.key⟩
  else txops.upsert ⟨ns, coll, kvWrite.key⟩ kvWrite.value

variable (serializeMetadata : SerializeMetadata)

def applyMetadata (ns coll : Bytes) (txops : TxOps) (metadataWrite : KVMetadataWrite) : TxOps :=
  match metadataWrite.entries with
  | none => txops.metadataDelete ⟨ns, coll, metadataWrite.key⟩
  | some entries =>
    match serializeMetadata entries with
    | .error _ => txops
    | .ok metadataBytes => txops.metadataUpdate ⟨ns, coll, metadataWrite.key⟩ metadataBytes

/-- The loop of `applyTxRwset` over the collections. -/
def applyCollHashedRwSet (ns : Bytes) (txops : TxOps) (collHashRWset : CollHashedRwSet) : TxOps :=
  let coll := collHashRWset.collectionName
  let txops := collHashRWset.hashedRwSet.hashedWrites.foldl (fun txops hashedWrite =>
    applyKVWrite ns coll txops
      ⟨hashedWrite.keyHash, hashedWrite.isDelete, hashedWrite.valueHash⟩) txops
  collHashRWset.hashedRwSet.metadataWrites.foldl (fun txops metadataWrite =>
    applyMetadata serializeMetadata ns coll txops
      ⟨metadataWrite.keyHash, metadataWrite.entries⟩) txops

/-- The loop of `applyTxRwset` over the namespaces. -/
def applyNsRwSet (txops : TxOps) (nsRWSet : NsRwSet) : TxOps :=
  let ns := nsRWSet.nameSpace
  let txops := nsRWSet.kvRwSet.writes.foldl (applyKVWrite ns []) txops
  let txops := nsRWSet.kvRwSet.metadataWrites.foldl (applyMetadata serializeMetadata ns []) txops
  nsRWSet.collHashedRwSets.foldl (applyCollHashedRwSet serializeMetadata ns) txops

def applyTxRwset (rwset : TxRwSet) : TxOps :=
  rwset.nsRwSets.foldl (applyNsRwSet serializeMetadata) []

end TxOps

structure PubAndHashUpdates where
  pubUpdates : UpdateBatch := {}
  hashUpdates : UpdateMap := {}

variable (precedingUpdates : PubAndHashUpdates) (db : DB) (serializeMetadata : SerializeMetadata)
  (rwset : TxRwSet) (ck : CompositeKey)

def retrieveLatestState : Option VersionedValue :=
  if ck.coll = [] then
    match precedingUpdates.pubUpdates.get ck.ns ck.key with
    | none => db.getState ck.ns ck.key
    | some vv => some vv
  else
    match precedingUpdates.hashUpdates.get ck.ns ck.coll ck.key with
    | none => db.getValueHash ck.ns ck.coll ck.key
    | some vv => some vv

def retrieveLatestMetadata : Option Bytes :=
  if ck.coll = [] then
    match precedingUpdates.pubUpdates.get ck.ns ck.key with
    | some vv => vv.metadata
    | none => db.getStateMetadata ck.ns ck.key
  else
    match precedingUpdates.hashUpdates.get ck.ns ck.coll ck.key with
    | some vv => vv.metadata
    | none => db.getPrivateDataMetadataByHash ck.ns ck.coll ck.key

/-- The operation with the latest value or metadata merged in; a metadata write to a key that does
not exist is dropped. -/
def prepareKeyOps (keyop : KeyOps) : Option KeyOps :=
  if keyop.isDelete || keyop.isUpsertAndMetadataUpdate then some keyop
  else if keyop.isOnlyUpsert then
    some { keyop with metadata := retrieveLatestMetadata precedingUpdates db ck }
  else
    match retrieveLatestState precedingUpdates db ck with
    | some latestVal => some { keyop with value := latestVal.value }
    | none => none

/-- The order in which Go goes through a map does not matter here: no two operations have one key,
and each is prepared from the preceding updates alone. -/
def prepareTxOps (precedingUpdates : PubAndHashUpdates) (db : DB) : TxOps :=
  (TxOps.applyTxRwset serializeMetadata rwset).filterMap fun (ck, keyop) =>
    (prepareKeyOps precedingUpdates db ck keyop).map fun keyop => (ck, keyop)

namespace PubAndHashUpdates

/-- One key of the loop of `ApplyWriteSet`. -/
def applyKeyOps (txHeight : Height) (u : PubAndHashUpdates) (op : CompositeKey × KeyOps) :
    Outcome PubAndHashUpdates :=
  let (compositeKey, keyops) := op
  if compositeKey.coll = [] then
    if keyops.isDelete then
      .ok { u with pubUpdates := u.pubUpdates.delete compositeKey.ns compositeKey.key txHeight }
    else do
      let pubUpdates ← u.pubUpdates.putValAndMetadata compositeKey.ns compositeKey.key keyops.value
        keyops.metadata txHeight
      .ok { u with pubUpdates := pubUpdates }
  else if keyops.isDelete then
    let hashUpdates := u.hashUpdates.delete compositeKey.ns compositeKey.coll compositeKey.key
      txHeight
    .ok { u with hashUpdates := hashUpdates }
  else do
    let hashUpdates ← u.hashUpdates.putValAndMetadata compositeKey.ns compositeKey.coll
      compositeKey.key keyops.value keyops.metadata txHeight
    .ok { u with hashUpdates := hashUpdates }

def applyWriteSet (u : PubAndHashUpdates)
    (txRWSet : TxRwSet) (txHeight : Height) (db : DB) : Outcome PubAndHashUpdates :=
  (prepareTxOps serializeMetadata txRWSet u db).foldlM (applyKeyOps txHeight) u

end PubAndHashUpdates

/-! ## The operations, key by key -/

inductive Operation where
  | write (isDelete : Bool) (value : Option Bytes)
  | metadata (entries : Option (List KVMetadataEntry))
  deriving DecidableEq, Repr

def Operation.isWrite : Operation → Bool
  | .write .. => true
  | .metadata _ => false

def Operation.act : Operation → Option (KeyOps → KeyOps)
  | .write true _ => some fun keyops => { keyops with flag := keyops.flag + KeyOps.keyDelete }
  | .write false value =>
    some fun keyops => { keyops with flag := keyops.flag + KeyOps.upsertVal, value := value }
  | .metadata none => some fun keyops => { keyops with flag := keyops.flag + KeyOps.metadataDelete }
  | .metadata (some entries) =>
    match serializeMetadata entries with
    | .error _ => none
    | .ok metadataBytes => some fun keyops => { keyops with
        flag := keyops.flag + KeyOps.metadataUpdate, metadata := some metadataBytes }

namespace TxRwSet

def collOperations (ns : Bytes) (coll : CollHashedRwSet) : List (CompositeKey × Operation) :=
  (coll.hashedRwSet.hashedWrites.map fun write =>
    (⟨ns, coll.collectionName, write.keyHash⟩, .write write.isDelete write.valueHash)) ++
  coll.hashedRwSet.metadataWrites.map fun write =>
    (⟨ns, coll.collectionName, write.keyHash⟩, .metadata write.entries)

def nsOperations (nsRwSet : NsRwSet) : List (CompositeKey × Operation) :=
  (nsRwSet.kvRwSet.writes.map fun write =>
    (⟨nsRwSet.nameSpace, [], write.key⟩, .write write.isDelete write.value)) ++
  (nsRwSet.kvRwSet.metadataWrites.map fun write =>
    (⟨nsRwSet.nameSpace, [], write.key⟩, .metadata write.entries)) ++
  nsRwSet.collHashedRwSets.flatMap (collOperations nsRwSet.nameSpace)

def operations : List (CompositeKey × Operation) := rwset.nsRwSets.flatMap nsOperations

/-- At most one write and at most one metadata write for each key. -/
structure AtMostOne (rwset : TxRwSet) : Prop where
  writes : ((rwset.operations.filter (·.2.isWrite)).map fst).Nodup
  metadataWrites : ((rwset.operations.filter (!·.2.isWrite)).map fst).Nodup

instance (rwset : TxRwSet) : Decidable rwset.AtMostOne :=
  decidable_of_iff (_ ∧ _) ⟨fun h => ⟨h.1, h.2⟩, fun h => ⟨h.writes, h.metadataWrites⟩⟩

end TxRwSet

open TxRwSet

namespace TxOps

variable {serializeMetadata : SerializeMetadata}

/-- One operation of the loops of `applyTxRwset`. -/
def step (serializeMetadata : SerializeMetadata) (txops : TxOps) (op : CompositeKey × Operation) :
    TxOps :=
  match op.2.act serializeMetadata with
  | none => txops
  | some f => modify f op.1 txops

theorem applyKVWrite_eq (ns coll : Bytes) : applyKVWrite ns coll = fun txops write =>
    step serializeMetadata txops (⟨ns, coll, write.key⟩, .write write.isDelete write.value) := by
  funext txops write
  unfold applyKVWrite
  cases write.isDelete <;> rfl

theorem applyMetadata_eq (ns coll : Bytes) :
    applyMetadata serializeMetadata ns coll = fun txops write =>
      step serializeMetadata txops (⟨ns, coll, write.key⟩, .metadata write.entries) := by
  funext txops write
  unfold applyMetadata step Operation.act
  cases write.entries with
  | none => rfl
  | some entries =>
    dsimp only
    cases serializeMetadata entries <;> rfl

theorem applyCollHashedRwSet_eq (ns : Bytes) :
    applyCollHashedRwSet serializeMetadata ns = fun txops coll =>
      (collOperations ns coll).foldl (step serializeMetadata) txops := by
  funext txops coll
  simp [applyCollHashedRwSet, collOperations, foldl_append, foldl_map,
    @applyKVWrite_eq serializeMetadata, applyMetadata_eq]

theorem applyNsRwSet_eq : applyNsRwSet serializeMetadata = fun txops nsRwSet =>
    (nsOperations nsRwSet).foldl (step serializeMetadata) txops := by
  funext txops nsRwSet
  simp [applyNsRwSet, nsOperations, foldl_append, foldl_map,
    foldl_flatMap, @applyKVWrite_eq serializeMetadata, applyMetadata_eq,
    applyCollHashedRwSet_eq]

theorem applyTxRwset_eq (rwset) :
    applyTxRwset serializeMetadata rwset = rwset.operations.foldl (step serializeMetadata) [] := by
  simp [applyTxRwset, operations, foldl_flatMap, applyNsRwSet_eq]

theorem lookup_modify (f : KeyOps → KeyOps) (k ck : CompositeKey) (txops) :
    (modify f k txops).lookup ck =
      if k = ck then some (f ((txops.lookup ck).getD {})) else txops.lookup ck := by
  induction txops with
  | nil =>
    unfold modify
    by_cases hk : k = ck
    · simp [hk]
    · simp [hk, lookup_cons, beq_false_of_ne (Ne.symm hk)]
  | cons op _ ih =>
    obtain ⟨k', _⟩ := op
    unfold modify
    by_cases hk' : k' = k
    · subst hk'
      rw [if_pos rfl, lookup_cons, lookup_cons]
      by_cases hck : k' = ck
      · simp [hck]
      · simp [hck, beq_false_of_ne (Ne.symm hck)]
    · rw [if_neg hk', lookup_cons, lookup_cons, ih]
      by_cases hck : ck = k'
      · subst hck
        simp [Ne.symm hk']
      · simp [beq_false_of_ne hck]

theorem keys_modify (f : KeyOps → KeyOps) (k : CompositeKey) (txops) :
    (modify f k txops).map fst =
      if k ∈ txops.map fst then txops.map fst else txops.map fst ++ [k] := by
  induction txops with
  | nil => rfl
  | cons op txops ih =>
    unfold modify
    by_cases hk : op.1 = k
    · simp [hk]
    · rw [if_neg hk, map_cons, ih]
      by_cases hmem : k ∈ txops.map fst
      · simp [hmem]
      · simp only [hmem, if_false, map_cons, mem_cons, or_false, Ne.symm hk, cons_append]

theorem nodup_foldl_step (ops : List (CompositeKey × Operation)) {txops}
    (h : (txops.map fst).Nodup) : ((ops.foldl (step serializeMetadata) txops).map fst).Nodup := by
  induction ops generalizing txops with
  | nil => exact h
  | cons _ _ ih =>
    refine ih ?_
    unfold step
    split
    · exact h
    · rw [keys_modify]
      split
      · exact h
      next hnot =>
        rw [← concat_eq_append]
        exact h.concat hnot

def stepKey (serializeMetadata : SerializeMetadata) (entry : Option KeyOps) (op : Operation) :
    Option KeyOps :=
  match op.act serializeMetadata with
  | none => entry
  | some f => some (f (entry.getD {}))

def operationsOf (ops : List (CompositeKey × Operation)) : List Operation :=
  (ops.filter (·.1 = ck)).map snd

theorem lookup_foldl_step (ck : CompositeKey) (ops : List (CompositeKey × Operation))
    (txops) : (ops.foldl (step serializeMetadata) txops).lookup ck =
      (operationsOf ck ops).foldl (stepKey serializeMetadata) (txops.lookup ck) := by
  induction ops generalizing txops with
  | nil => rfl
  | cons op _ ih =>
    rw [foldl_cons, ih]
    have hstep : (step serializeMetadata txops op).lookup ck =
        if op.1 = ck then stepKey serializeMetadata (txops.lookup ck) op.2
        else txops.lookup ck := by
      unfold step stepKey
      cases op.2.act serializeMetadata with
      | none => simp
      | some f => exact lookup_modify f op.1 ck txops
    rw [hstep]
    by_cases hck : op.1 = ck
    · simp [operationsOf, hck]
    · simp [operationsOf, hck]

end TxOps

/-! ## At most one write and one metadata write -/

inductive Write where
  | upsert (value : Option Bytes)
  | delete
  deriving DecidableEq, Repr

/-- What a transaction does to one key; the metadata is deleted where it becomes nil. -/
structure KeyChange where
  write : Option Write
  metadata : Option (Option Bytes)
  deriving DecidableEq, Repr

def Operation.write? : Operation → Option Write
  | .write true _ => some .delete
  | .write false value => some (.upsert value)
  | .metadata _ => none

def Operation.metadata? :
    Operation → Option (Option Bytes)
  | .write .. => none
  | .metadata none => some none
  | .metadata (some entries) =>
    match serializeMetadata entries with
    | .error _ => none
    | .ok metadataBytes => some (some metadataBytes)

def TxRwSet.changeOf : KeyChange where
  write := (TxOps.operationsOf ck rwset.operations).findSome? Operation.write?
  metadata := (TxOps.operationsOf ck rwset.operations).findSome?
    (Operation.metadata? serializeMetadata)

def KeyChange.keyOps : KeyChange → Option KeyOps
  | ⟨none, none⟩ => none
  | ⟨none, some none⟩ => some ⟨4, none, none⟩
  | ⟨none, some (some metadata)⟩ => some ⟨2, none, some metadata⟩
  | ⟨some .delete, none⟩ => some ⟨8, none, none⟩
  | ⟨some .delete, some none⟩ => some ⟨12, none, none⟩
  | ⟨some .delete, some (some metadata)⟩ => some ⟨10, none, some metadata⟩
  | ⟨some (.upsert value), none⟩ => some ⟨1, value, none⟩
  | ⟨some (.upsert value), some none⟩ => some ⟨5, value, none⟩
  | ⟨some (.upsert value), some (some metadata)⟩ => some ⟨3, value, some metadata⟩

namespace TxOps

variable {serializeMetadata : SerializeMetadata}

theorem length_filter_operationsOf_le {p ops}
    (h : ((ops.filter (p ·.2)).map fst).Nodup) (ck : CompositeKey) :
    ((operationsOf ck ops).filter p).length ≤ 1 := by
  have hcount := nodup_iff_count_le_one.mp h ck
  rw [count_eq_countP, countP_map, countP_filter] at hcount
  rw [operationsOf, filter_map, length_map, filter_filter, ← countP_eq_length_filter]
  refine le_trans (le_of_eq (countP_congr fun _ _ => ?_)) hcount
  simp [and_comm]

theorem operationsOf_cases {rwset : TxRwSet} (h : rwset.AtMostOne) (ck : CompositeKey) :
    operationsOf ck rwset.operations = [] ∨
    (∃ op, operationsOf ck rwset.operations = [op]) ∨
    (∃ d v e, operationsOf ck rwset.operations = [.write d v, .metadata e]) ∨
    (∃ d v e, operationsOf ck rwset.operations = [.metadata e, .write d v]) := by
  have hwrites := length_filter_operationsOf_le h.writes ck
  have hmetadata := length_filter_operationsOf_le (p := fun op => !op.isWrite) h.metadataWrites ck
  generalize operationsOf ck rwset.operations = ops at *
  match ops with
  | [] => exact .inl rfl
  | [op] => exact .inr (.inl ⟨op, rfl⟩)
  | [.write d v, .metadata e] => exact .inr (.inr (.inl ⟨d, v, e, rfl⟩))
  | [.metadata e, .write d v] => exact .inr (.inr (.inr ⟨d, v, e, rfl⟩))
  | .write .. :: .write .. :: _ => simp [filter_cons, Operation.isWrite] at hwrites
  | .metadata _ :: .metadata _ :: _ => simp [Operation.isWrite] at hmetadata
  | .write .. :: .metadata _ :: .write .. :: _ => simp [filter_cons, Operation.isWrite] at hwrites
  | .write .. :: .metadata _ :: .metadata _ :: _ => simp [Operation.isWrite] at hmetadata
  | .metadata _ :: .write .. :: .write .. :: _ => simp [filter_cons, Operation.isWrite] at hwrites
  | .metadata _ :: .write .. :: .metadata _ :: _ => simp [Operation.isWrite] at hmetadata

theorem stepKey_metadata (entry : Option KeyOps) (entries : Option (List KVMetadataEntry)) :
    stepKey serializeMetadata entry (.metadata entries) =
      match (Operation.metadata entries).metadata? serializeMetadata with
      | none => entry
      | some none => some { entry.getD {} with
          flag := (entry.getD {}).flag + KeyOps.metadataDelete }
      | some (some metadata) => some { entry.getD {} with
          flag := (entry.getD {}).flag + KeyOps.metadataUpdate, metadata := some metadata } := by
  unfold stepKey Operation.act Operation.metadata?
  cases entries with
  | none => rfl
  | some entries =>
    dsimp only
    cases serializeMetadata entries <;> rfl

theorem lookup_applyTxRwset {rwset} (h : rwset.AtMostOne) (ck : CompositeKey) :
    (applyTxRwset serializeMetadata rwset).lookup ck =
      (rwset.changeOf serializeMetadata ck).keyOps := by
  have hwrite (entries : Option (List KVMetadataEntry)) :
      (Operation.metadata entries).write? = none := rfl
  have hmetadata d v : (Operation.write d v).metadata? serializeMetadata = none := rfl
  rw [applyTxRwset_eq, lookup_foldl_step, changeOf]
  rcases operationsOf_cases h ck with hops | ⟨op, hops⟩ | ⟨d, v, e, hops⟩ | ⟨d, v, e, hops⟩
  · rw [hops]
    rfl
  · rw [hops]
    match op with
    | .write true _ | .write false _ => rfl
    | .metadata entries =>
      simp only [foldl_cons, foldl_nil, stepKey_metadata, findSome?_cons, hwrite, findSome?_nil]
      rcases (Operation.metadata entries).metadata? serializeMetadata with _ | _ | metadata <;> rfl
  -- in either order
  all_goals
    rw [hops]
    simp only [foldl_cons, foldl_nil, stepKey_metadata, findSome?_cons, hwrite,
      findSome?_nil, hmetadata]
    rcases (Operation.metadata e).metadata? serializeMetadata with _ | _ | _ <;>
      cases d <;> rfl

end TxOps

end Loki.Fabric
