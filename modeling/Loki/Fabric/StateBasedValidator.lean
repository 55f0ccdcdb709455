import Loki.Fabric.CombinedIterator
import Loki.Fabric.RangeQueryHashValidator
import Loki.Fabric.WriteSet

/-!
# Validation of a block against the state

`statebasedval/state_based_validator.go`, for a database without bulk loading: the reads and the
range queries of each transaction are checked against the committed state and the updates of the
valid transactions before it, whose writes are collected in a batch.
-/

namespace Loki.Fabric

open Loki.Foundation Loki.Fabric.Height Option

inductive TxValidationCode where
  | valid
  | mvccReadConflict
  | phantomReadConflict
  deriving DecidableEq, Repr

def signOfDifference (a b : Nat) : Int :=
  if 0 < ((a : Int) - b).bmod (2 ^ 64) then 1 else -1

def Height.compare (h h1 : Height) : Int :=
  if h.blockNum ≠ h1.blockNum then signOfDifference h.blockNum h1.blockNum
  else if h.txNum ≠ h1.txNum then signOfDifference h.txNum h1.txNum
  else 0

def areSame : Option Height → Option Height → Bool
  | none, h2 => h2.isNone
  | some _, none => false
  | some h1, some h2 => h1.compare h2 == 0

def convertToVersionHeight : Option Height → Outcome Height
  | some v => .ok v
  | none => .error (.panic "runtime error: invalid memory address or nil pointer dereference")

def newKVRead (item : VersionedKV) : KVRead := ⟨item.1, some item.2.version⟩

/-- `rangeQueryResultsValidator.validate`, on all that the iterator gives. -/
def rangeQueryResultsValidate : List KVRead → List VersionedKV → Outcome Bool
  | [], results => .ok results.isEmpty
  | _ :: _, [] => .ok false
  | kvRead :: rqResults, (key, vv) :: results =>
    if key ≠ kvRead.key then .ok false
    else do
      let version ← convertToVersionHeight kvRead.version
      if !areSame (some vv.version) (some version) then .ok false
      else rangeQueryResultsValidate rqResults results

structure Transaction where
  indexInBlock : Nat
  rwset : TxRwSet
  deriving DecidableEq, Repr

structure Block where
  num : Nat
  txs : List Transaction
  deriving DecidableEq, Repr

def Block.ofNamespace (kvRwSets : List KVRWSet) : Block where
  num := 1
  txs := kvRwSets.mapIdx fun i kvRwSet => ⟨i, ⟨[{ nameSpace := [0], kvRwSet := kvRwSet }]⟩⟩

namespace Validator

variable (C : Codec) (serializeMetadata : SerializeMetadata) (db : DB)

def validateKVRead (ns : Bytes) (updates : UpdateBatch) (kvRead : KVRead) : Bool :=
  if updates.existsKey ns kvRead.key then false
  else areSame (db.getVersion ns kvRead.key) kvRead.version

def validateReadSet (ns : Bytes) (kvReads : List KVRead) (updates : UpdateBatch) : Bool :=
  kvReads.all (validateKVRead db ns updates)

def combinedResults (ns : Bytes) (rangeQueryInfo : RangeQueryInfo) (updates : UpdateBatch) :
    List VersionedKV :=
  (CombinedIterator.new db updates ns rangeQueryInfo.startKey rangeQueryInfo.endKey
    (!rangeQueryInfo.itrExhausted)).toList

def validateRangeQuery (ns : Bytes) (rangeQueryInfo : RangeQueryInfo) (updates : UpdateBatch) :
    Outcome Bool :=
  let results := combinedResults db ns rangeQueryInfo updates
  match rangeQueryInfo.readsInfo with
  | some (.readsMerkleHashes inMerkle) =>
    RangeQueryHashValidator.validate C inMerkle (results.map newKVRead)
  | some (.rawReads kvReads) => rangeQueryResultsValidate kvReads results
  | none => rangeQueryResultsValidate [] results

def validateRangeQueries (ns : Bytes) (updates : UpdateBatch) :
    List RangeQueryInfo → Outcome Bool
  | [] => .ok true
  | rqi :: rangeQueriesInfo => do
    let valid ← validateRangeQuery C db ns rqi updates
    if !valid then .ok false else validateRangeQueries ns updates rangeQueriesInfo

def validateKVReadHash (ns coll : Bytes) (updates : UpdateMap) (kvReadHash : KVReadHash) : Bool :=
  if updates.contains ns coll kvReadHash.keyHash then false
  else areSame (db.getKeyHashVersion ns coll kvReadHash.keyHash) kvReadHash.version

def validateCollHashedReadSet (ns coll : Bytes) (kvReadHashes : List KVReadHash)
    (updates : UpdateMap) : Bool :=
  kvReadHashes.all (validateKVReadHash db ns coll updates)

def validateNsHashedReadSets (ns : Bytes) (collHashedRWSets : List CollHashedRwSet)
    (updates : UpdateMap) : Bool :=
  collHashedRWSets.all fun collHashedRWSet =>
    validateCollHashedReadSet db ns collHashedRWSet.collectionName
      collHashedRWSet.hashedRwSet.hashedReads updates

/-- The loop of `validateTx`. -/
def validateNsRwSets (updates : PubAndHashUpdates) :
    List NsRwSet → Outcome TxValidationCode
  | [] => .ok .valid
  | nsRWSet :: nsRwSets =>
    let ns := nsRWSet.nameSpace
    if !validateReadSet db ns nsRWSet.kvRwSet.reads updates.pubUpdates then
      .ok .mvccReadConflict
    else do
      let valid ← validateRangeQueries C db ns updates.pubUpdates
        nsRWSet.kvRwSet.rangeQueriesInfo
      if !valid then .ok .phantomReadConflict
      else if !validateNsHashedReadSets db ns nsRWSet.collHashedRwSets updates.hashUpdates then
        .ok .mvccReadConflict
      else validateNsRwSets updates nsRwSets

def validateTx (txRWSet : TxRwSet) (updates : PubAndHashUpdates) : Outcome TxValidationCode :=
  validateNsRwSets C db updates txRWSet.nsRwSets

def validateEndorserTX (txRWSet : TxRwSet) (doMVCCValidation : Bool)
    (updates : PubAndHashUpdates) : Outcome TxValidationCode :=
  if doMVCCValidation then validateTx C db txRWSet updates else .ok .valid

def step (blockNum : Nat) (doMVCCValidation : Bool) (updates : PubAndHashUpdates)
    (tx : Transaction) : Outcome (TxValidationCode × PubAndHashUpdates) := do
  let validationCode ← validateEndorserTX C db tx.rwset doMVCCValidation updates
  if validationCode = .valid then
    let committingTxHeight : Height := ⟨blockNum, tx.indexInBlock⟩
    let updates ← updates.applyWriteSet serializeMetadata tx.rwset committingTxHeight db
    .ok (validationCode, updates)
  else .ok (validationCode, updates)

/-- The loop of `ValidateAndPrepareBatch`, with the codes it sets. -/
def run (blockNum : Nat) (doMVCCValidation : Bool) (updates : PubAndHashUpdates) :
    List Transaction → Outcome (List TxValidationCode × PubAndHashUpdates)
  | [] => .ok ([], updates)
  | tx :: txs => do
    let (code, updates) ← step C serializeMetadata db blockNum doMVCCValidation updates tx
    let (codes, updates) ← run blockNum doMVCCValidation updates txs
    .ok (code :: codes, updates)

def validateAndPrepareBatch (block : Block) (doMVCCValidation : Bool) :
    Outcome (List TxValidationCode × PubAndHashUpdates) :=
  run C serializeMetadata db block.num doMVCCValidation {} block.txs

end Validator

/-! ## The checks of one transaction -/

theorem signOfDifference_ne_zero (a b : Nat) : signOfDifference a b ≠ 0 := by
  unfold signOfDifference
  split <;> decide

theorem Height.compare_eq_zero_iff (h h1 : Height) : h.compare h1 = 0 ↔ h = h1 := by
  obtain ⟨_, _⟩ := h
  obtain ⟨_, _⟩ := h1
  unfold compare
  split
  next hne =>
    simp only [signOfDifference_ne_zero, mk.injEq, false_iff]
    exact fun h => hne h.1
  next heq =>
    split
    next hne =>
      simp only [signOfDifference_ne_zero, mk.injEq, false_iff]
      exact fun h => hne h.2
    next heq' =>
      simp only [mk.injEq, true_iff]
      exact ⟨not_not.mp heq, not_not.mp heq'⟩

theorem areSame_iff (h1 h2 : Option Height) : areSame h1 h2 = true ↔ h1 = h2 := by
  cases h1 with
  | none => cases h2 <;> simp [areSame]
  | some =>
    cases h2 with
    | none => simp [areSame]
    | some => simp [areSame, compare_eq_zero_iff]

theorem rangeQueryResultsValidate_eq_true_iff (rqResults : List KVRead)
    (results : List VersionedKV) :
    rangeQueryResultsValidate rqResults results = .ok true ↔ results.map newKVRead = rqResults := by
  induction rqResults generalizing results with
  | nil => simp [rangeQueryResultsValidate]
  | cons kvRead _ ih =>
    cases results with
    | nil => simp [rangeQueryResultsValidate]
    | cons item results =>
      obtain ⟨key, vv⟩ := item
      obtain ⟨readKey, version⟩ := kvRead
      rw [rangeQueryResultsValidate, List.map_cons, newKVRead, List.cons.injEq, KVRead.mk.injEq]
      by_cases hkey : key = readKey
      · rw [if_neg (not_not.mpr hkey)]
        cases version with
        | none => simp [convertToVersionHeight, bind, Except.bind]
        | some version =>
          simp only [convertToVersionHeight, bind, Except.bind, some.injEq, hkey, true_and]
          by_cases hversion : vv.version = version
          · have hsame : areSame (some vv.version) (some version) = true :=
              (areSame_iff _ _).mpr (congrArg some hversion)
            rw [hsame]
            simpa [hversion] using ih results
          · have hsame : areSame (some vv.version) (some version) = false :=
              Bool.eq_false_iff.mpr fun h => hversion (some.inj ((areSame_iff _ _).mp h))
            simp [hsame, hversion]
      · simp [hkey]

theorem rangeQueryResultsValidate_ne_panic {rqResults}
    (h : ∀ kvRead ∈ rqResults, kvRead.version.isSome = true) (results : List VersionedKV)
    (message : String) : rangeQueryResultsValidate rqResults results ≠ .error (.panic message) := by
  induction rqResults generalizing results with
  | nil => simp [rangeQueryResultsValidate]
  | cons _ _ ih =>
    rw [List.forall_mem_cons] at h
    obtain ⟨_, hversion⟩ := isSome_iff_exists.mp h.1
    cases results with
    | nil => simp [rangeQueryResultsValidate]
    | cons _ results =>
      rw [rangeQueryResultsValidate, hversion]
      split
      · simp
      · simp only [convertToVersionHeight, bind, Except.bind]
        split
        · simp
        · exact ih h.2 results

end Loki.Fabric
