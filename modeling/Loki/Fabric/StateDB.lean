import Loki.Fabric.QueryResultsHelper
import Loki.Foundation.Call
import Loki.Foundation.SortedScan
import Mathlib.Data.List.TakeWhile

/-!
# The state database and the batch of updates

`statedb/statedb.go` and `privacyenabledstate/db.go`.  Strings are sequences of bytes, in the order
that Go gives them.  The database is the committed state: what its interface returns is read off
it.
-/

namespace Loki.Fabric

open Loki.Foundation Std.ExtTreeMap Prod Std.TransCmp Std.ReflOrd

/-- The value and the metadata may be nil; a nil value marks a deletion. -/
structure VersionedValue where
  value : Option Bytes
  metadata : Option Bytes
  version : Height
  deriving DecidableEq, Repr

def VersionedValue.isDelete (vv : VersionedValue) : Bool := vv.value.isNone

abbrev VersionedKV := Bytes × VersionedValue

abbrev NsUpdates := Std.ExtTreeMap Bytes VersionedValue

def inRange (startKey endKey key : Bytes) : Bool :=
  compare key startKey != .lt && (endKey == [] || compare key endKey == .lt)

structure UpdateBatch where
  updates : Std.ExtTreeMap Bytes NsUpdates := ∅

namespace UpdateBatch

variable (batch : UpdateBatch) (ns key : Bytes)

def get : Option VersionedValue :=
  match batch.updates[ns]? with
  | none => none
  | some nsUpdates => nsUpdates[key]?

def update (vv : VersionedValue) : UpdateBatch where
  updates := batch.updates.insert ns ((batch.updates[ns]?.getD ∅).insert key vv)

def putValAndMetadata (value metadata : Option Bytes)
    (version : Height) : Outcome UpdateBatch :=
  match value with
  | none => .error (.panic "Nil value not allowed. Instead call 'Delete' function")
  | some value => .ok (batch.update ns key ⟨some value, metadata, version⟩)

def delete (version : Height) : UpdateBatch := batch.update ns key ⟨none, none, version⟩

/-- `Exists` -/
def existsKey : Bool :=
  match batch.updates[ns]? with
  | none => false
  | some nsUpdates => nsUpdates.contains key

/-- `sort.SearchStrings`, on keys in order. -/
def searchStrings (sortedKeys : List Bytes) (x : Bytes) : Nat :=
  (sortedKeys.takeWhile fun key => compare key x == .lt).length

def getRangeScanIterator (ns startKey endKey : Bytes) : List VersionedKV :=
  match batch.updates[ns]? with
  | none => []
  | some nsUpdates =>
    let sortedKeys := nsUpdates.toList.map fst
    let nextIndex := if startKey = [] then 0 else searchStrings sortedKeys startKey
    let lastIndex := if endKey = [] then sortedKeys.length else searchStrings sortedKeys endKey
    (nsUpdates.toList.take lastIndex).drop nextIndex

end UpdateBatch

/-- `UpdateMap`: a batch for each namespace, whose own namespaces are the collections. -/
structure UpdateMap where
  batches : Std.ExtTreeMap Bytes UpdateBatch := ∅

namespace UpdateMap

variable (b : UpdateMap)

def get (ns coll key : Bytes) : Option VersionedValue :=
  match b.batches[ns]? with
  | none => none
  | some nsBatch => nsBatch.get coll key

def contains (ns coll key : Bytes) : Bool :=
  match b.batches[ns]? with
  | none => false
  | some nsBatch => nsBatch.existsKey coll key

def getOrCreateNsBatch (ns : Bytes) : UpdateBatch := b.batches[ns]?.getD {}

def putValAndMetadata (ns coll key : Bytes) (value metadata : Option Bytes)
    (version : Height) : Outcome UpdateMap :=
  match (b.getOrCreateNsBatch ns).putValAndMetadata coll key value metadata version with
  | .ok nsBatch => .ok ⟨b.batches.insert ns nsBatch⟩
  | .error fault => .error fault

def delete (ns coll key : Bytes) (version : Height) : UpdateMap where
  batches := b.batches.insert ns ((b.getOrCreateNsBatch ns).delete coll key version)

end UpdateMap

/-- The committed state, of public data and of hashes of private data.  A stored value is never nil,
and the hint knows of every namespace that has metadata. -/
structure DB where
  state : Bytes → Std.ExtTreeMap Bytes VersionedValue
  hashedState : Bytes → Bytes → Std.ExtTreeMap Bytes VersionedValue
  metadataEverUsedFor : Bytes → Bool
  value_isSome : ∀ {ns key : Bytes} {vv : VersionedValue},
    (state ns)[key]? = some vv → vv.value.isSome = true
  hashedValue_isSome : ∀ {ns coll key : Bytes} {vv : VersionedValue},
    (hashedState ns coll)[key]? = some vv → vv.value.isSome = true
  metadata_hint : ∀ {ns key : Bytes} {vv : VersionedValue},
    (state ns)[key]? = some vv → vv.metadata.isSome = true → metadataEverUsedFor ns = true
  hashedMetadata_hint : ∀ {ns coll key : Bytes} {vv : VersionedValue},
    (hashedState ns coll)[key]? = some vv → vv.metadata.isSome = true →
      metadataEverUsedFor ns = true

namespace DB

variable (db : DB) (ns coll keyHash : Bytes)

def getState (ns key : Bytes) : Option VersionedValue := (db.state ns)[key]?

def getVersion (ns key : Bytes) : Option Height := (db.getState ns key).map (·.version)

def getValueHash : Option VersionedValue := (db.hashedState ns coll)[keyHash]?

def getKeyHashVersion : Option Height := (db.getValueHash ns coll keyHash).map (·.version)

def getStateMetadata (ns key : Bytes) : Option Bytes :=
  if !db.metadataEverUsedFor ns then none
  else
    match db.getState ns key with
    | none => none
    | some vv => vv.metadata

def getPrivateDataMetadataByHash : Option Bytes :=
  if !db.metadataEverUsedFor ns then none
  else
    match db.getValueHash ns coll keyHash with
    | none => none
    | some vv => vv.metadata

def getStateRangeScanIterator (ns startKey endKey : Bytes) : List VersionedKV :=
  (db.state ns).toList.filter fun kv => inRange startKey endKey kv.1

def empty : DB where
  state := fun _ => ∅
  hashedState := fun _ _ => ∅
  metadataEverUsedFor := fun _ => false
  value_isSome := by simp
  hashedValue_isSome := by simp
  metadata_hint := by simp
  hashedMetadata_hint := by simp

end DB

/-! ## What the batches hold -/

namespace UpdateBatch

variable (batch : UpdateBatch)

theorem get_update (ns key ns' key' : Bytes) (vv : VersionedValue) :
    (batch.update ns key vv).get ns' key' =
      if ns = ns' ∧ key = key' then some vv else batch.get ns' key' := by
  unfold get update
  rw [getElem?_insert]
  by_cases hns : ns = ns'
  · subst hns
    simp only [compare_self, if_true, true_and, getElem?_insert, Std.LawfulEqOrd.compare_eq_iff_eq]
    split
    · rfl
    · cases batch.updates[ns]? <;> simp
  · simp [hns]

@[simp] theorem get_empty (ns key : Bytes) : ({} : UpdateBatch).get ns key = none := by simp [get]

theorem existsKey_eq (ns key : Bytes) : batch.existsKey ns key = (batch.get ns key).isSome := by
  unfold existsKey get
  split
  · rfl
  · exact isSome_getElem?_eq_contains.symm

theorem searchStrings_map (items : List VersionedKV) (x : Bytes) :
    searchStrings (items.map fst) x =
      (items.takeWhile fun item => compare item.1 x == .lt).length := by
  rw [searchStrings, List.takeWhile_map, List.length_map]
  rfl

theorem not_compare_nil_lt (key : Bytes) : (compare key [] == .lt) = false := by cases key <;> rfl

/-- Both ends of the scan are found by search, also where a key is empty. -/
theorem getRangeScanIterator_some (nsUpdates : NsUpdates) (startKey endKey : Bytes) :
    (nsUpdates.toList.take (if endKey = [] then (nsUpdates.toList.map fst).length
        else searchStrings (nsUpdates.toList.map fst) endKey)).drop
      (if startKey = [] then 0 else searchStrings (nsUpdates.toList.map fst) startKey) =
    nsUpdates.toList.filter fun item => inRange startKey endKey item.1 := by
  have hascending : Ascending nsUpdates.toList := ordered_keys_toList
  have hnext : (if startKey = [] then 0
      else searchStrings (nsUpdates.toList.map fst) startKey) =
      (nsUpdates.toList.takeWhile fun item => compare item.1 startKey == .lt).length := by
    split
    · subst startKey
      simp only [not_compare_nil_lt]
      cases nsUpdates.toList <;> rfl
    · exact searchStrings_map ..
  have hlast : (if endKey = [] then (nsUpdates.toList.map fst).length
        else searchStrings (nsUpdates.toList.map fst) endKey) =
      (nsUpdates.toList.takeWhile fun item =>
        endKey == [] || compare item.1 endKey == .lt).length := by
    split
    · subst endKey
      rw [List.length_map, List.takeWhile_eq_self_iff.mpr (by simp)]
    next hne =>
      have hbeq : (endKey == []) = false := beq_false_of_ne hne
      rw [searchStrings_map]
      simp [hbeq]
  rw [hnext, hlast, drop_take_eq_filter]
  · apply List.filter_congr
    intro _ _
    rw [inRange, Bool.and_comm, bne]
  · refine hascending.imp fun hlt hb => ?_
    simp only [Bool.or_eq_true, beq_iff_eq] at hb ⊢
    exact hb.imp_right (lt_trans hlt)
  · refine hascending.imp fun hlt hb => ?_
    rw [beq_iff_eq] at hb ⊢
    exact lt_trans hlt hb

theorem isScan_getRangeScanIterator (ns startKey endKey : Bytes) :
    IsScan (batch.get ns) (inRange startKey endKey · = true)
      (batch.getRangeScanIterator ns startKey endKey) := by
  unfold get getRangeScanIterator
  cases batch.updates[ns]? with
  | none => exact ⟨.nil, by simp⟩
  | some nsUpdates =>
    dsimp only
    rw [getRangeScanIterator_some]
    exact isScan_toList nsUpdates (inRange startKey endKey)

end UpdateBatch

namespace UpdateMap

theorem contains_eq (b : UpdateMap) (ns coll key : Bytes) :
    b.contains ns coll key = (b.get ns coll key).isSome := by
  unfold contains get
  split
  · rfl
  · exact UpdateBatch.existsKey_eq ..

theorem get_insert (b : UpdateMap) (ns coll key ns' coll' key' : Bytes) (vv : VersionedValue) :
    (⟨b.batches.insert ns ((b.getOrCreateNsBatch ns).update coll key vv)⟩ : UpdateMap).get
        ns' coll' key' =
      if ns = ns' ∧ coll = coll' ∧ key = key' then some vv else b.get ns' coll' key' := by
  unfold get getOrCreateNsBatch
  rw [getElem?_insert]
  by_cases hns : ns = ns'
  · subst hns
    simp only [compare_self, if_true, true_and, UpdateBatch.get_update]
    split
    · rfl
    · cases b.batches[ns]? <;> simp
  · simp [hns]

end UpdateMap

/-! ## What the database returns -/

namespace DB

variable (db : DB) (ns coll key : Bytes)

theorem getStateMetadata_eq :
    db.getStateMetadata ns key = (db.getState ns key).bind (·.metadata) := by
  unfold getStateMetadata
  cases hstate : db.getState ns key with
  | none => simp
  | some vv =>
    have hhint := db.metadata_hint hstate
    cases hmetadata : vv.metadata with
    | none => simp [hmetadata]
    | some => simp [hmetadata, hhint (by rw [hmetadata]; rfl)]

theorem getPrivateDataMetadataByHash_eq : db.getPrivateDataMetadataByHash ns coll key =
    (db.getValueHash ns coll key).bind (·.metadata) := by
  unfold getPrivateDataMetadataByHash
  cases hstate : db.getValueHash ns coll key with
  | none => simp
  | some vv =>
    have hhint := db.hashedMetadata_hint hstate
    cases hmetadata : vv.metadata with
    | none => simp [hmetadata]
    | some => simp [hmetadata, hhint (by rw [hmetadata]; rfl)]

theorem isScan_getStateRangeScanIterator (startKey endKey : Bytes) :
    IsScan (db.getState ns) (inRange startKey endKey · = true)
      (db.getStateRangeScanIterator ns startKey endKey) :=
  isScan_toList (db.state ns) (inRange startKey endKey)

end DB

end Loki.Fabric
