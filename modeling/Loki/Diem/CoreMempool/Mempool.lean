import Loki.Diem.CoreMempool.Insertion

/-!
# The mempool

`core_mempool/ttl_cache.rs` and the operations of `core_mempool/mempool.rs` that change the mempool.
The clocks and the random numbers that an operation reads are its inputs.  The cache of the
metrics, which is read for counters only, is left out.
-/

namespace Loki.Diem.CoreMempool

open Loki.Foundation TransactionStore

structure ValueInfo (V : Type) where
  value : V
  ttl : Nat

structure TtlCache (K V : Type) [Ord K] where
  capacity : Nat
  defaultTimeout : Nat
  data : BTreeMap K (ValueInfo V) := ∅
  ttlIndex : BTreeMap Nat K := ∅

namespace TtlCache

variable {K V : Type} [Ord K] [Std.TransOrd K]

variable (cache : TtlCache K V)

def get (key : K) : Option V := cache.data[key]?.map ValueInfo.value

def dropOldest : TtlCache K V :=
  if cache.data.size = cache.capacity then
    match cache.ttlIndex.minEntry? with
    | some (time, key) =>
      { cache with ttlIndex := cache.ttlIndex.erase time, data := cache.data.erase key }
    | none => cache
  else cache

def insert (key : K) (value : V) (now : Nat) : TtlCache K V :=
  let cache :=
    match cache.data[key]? with
    | some info => { cache with ttlIndex := cache.ttlIndex.erase info.ttl }
    | none => cache.dropOldest
  let expirationTime := now + cache.defaultTimeout
  { cache with
    ttlIndex := cache.ttlIndex.insert expirationTime key
    data := cache.data.insert key ⟨value, expirationTime⟩ }

def remove (key : K) : TtlCache K V × Option V :=
  match cache.data[key]? with
  | some info =>
    ({ cache with data := cache.data.erase key, ttlIndex := cache.ttlIndex.erase info.ttl },
      some info.value)
  | none => (cache, none)

def gc (gcTime : Nat) : TtlCache K V :=
  let expired := cache.ttlIndex.filter fun time _ => decide (time < gcTime)
  { cache with
    ttlIndex := cache.ttlIndex.filter fun time _ => decide (gcTime ≤ time)
    data := expired.toList.foldl (fun data entry => data.erase entry.2) cache.data }

variable {cache : TtlCache K V} {key other : K}

theorem remove_snd : (cache.remove key).2 = cache.get key := by
  unfold remove get
  cases cache.data[key]? <;> rfl

theorem get_insert_self (value : V) (now : Nat) :
    (cache.insert key value now).get key = some value := by
  simp [insert, get]

variable [Std.LawfulEqOrd K] [DecidableEq K]

theorem get_insert_of_ne {value found now} (hne : key ≠ other)
    (h : (cache.insert key value now).get other = some found) : cache.get other = some found := by
  unfold insert at h
  simp only [get, getElem?_insert, if_neg hne] at h ⊢
  split at h
  · exact h
  · unfold dropOldest at h
    split at h
    case isFalse => exact h
    · split at h
      case h_2 => exact h
      · simp only [getElem?_erase] at h
        split at h
        · cases h
        · exact h

theorem get_remove : (cache.remove key).1.get other =
    if key = other then none else cache.get other := by
  unfold remove get
  by_cases heq : key = other
  · subst heq
    cases hkey : cache.data[key]? <;> simp [hkey]
  · cases cache.data[key]? <;> simp [heq]

theorem get_gc {gcTime found} (h : (cache.gc gcTime).get key = some found) :
    cache.get key = some found := by
  unfold gc get at *
  simp only at h
  generalize (cache.ttlIndex.filter fun time _ => decide (time < gcTime)).toList = entries at h
  generalize cache.data = data at h ⊢
  induction entries generalizing data with
  | nil => exact h
  | cons _ _ ih =>
    have hrest := ih _ h
    rw [getElem?_erase] at hrest
    split at hrest
    · cases hrest
    · exact hrest

end TtlCache

structure MempoolConfig where
  capacity : Nat
  capacityPerUser : Nat
  systemTransactionTimeoutSecs : Nat

structure Mempool where
  transactions : TransactionStore
  sequenceNumberCache : TtlCache AccountAddress Nat
  systemTransactionTimeout : Nat

namespace Mempool

open MempoolTransaction (fromSecs)

variable (config : MempoolConfig) (mempool : Mempool) (input : AddTxn)

def new : Mempool where
  transactions := { capacity := config.capacity, capacityPerUser := config.capacityPerUser }
  sequenceNumberCache := { capacity := config.capacity, defaultTimeout := fromSecs 100 }
  systemTransactionTimeout := fromSecs config.systemTransactionTimeoutSecs

def cached (address : AccountAddress) : Option Nat := mempool.sequenceNumberCache.get address

structure AddTxn where
  txn : SignedTransaction
  rankingScore : Nat
  dbSequenceNumber : Nat
  timelineState : TimelineState
  governanceRole : GovernanceRole
  /-- The clock of the cache, and the duration since the epoch. -/
  systemTime : Nat
  now : Nat
  random : Nat
  deriving DecidableEq, Repr

def currentSequenceNumber : Nat :=
  match mempool.cached input.txn.sender with
  | none => input.dbSequenceNumber
  | some value => max value input.dbSequenceNumber

/-- `txn_info`, with its expiration by the clock of the system. -/
def txnInfo : MempoolTransaction where
  txn := input.txn
  expirationTime := input.now + mempool.systemTransactionTimeout
  rankingScore := input.rankingScore
  timelineState := input.timelineState
  governanceRole := input.governanceRole

def addTxn : Mempool × MempoolStatus :=
  let sequenceNumber := mempool.currentSequenceNumber input
  let cache := mempool.sequenceNumberCache.insert input.txn.sender sequenceNumber input.systemTime
  if input.txn.sequenceNumber < sequenceNumber then
    let number := input.txn.sequenceNumber
    ({ mempool with sequenceNumberCache := cache }, ⟨.invalidSeqNumber,
      s!"transaction sequence number is {number}, current sequence number is  {sequenceNumber}"⟩)
  else
    let (transactions, status) :=
      mempool.transactions.insert (mempool.txnInfo input) sequenceNumber input.random
    ({ mempool with sequenceNumberCache := cache, transactions := transactions }, status)

def removeTransaction (sender : AccountAddress) (sequenceNumber : Nat)
    (isRejected : Bool) (systemTime : Nat) : Mempool :=
  let (cache, value) := mempool.sequenceNumberCache.remove sender
  let currentSeqNumber := value.getD 0
  if isRejected then
    if currentSeqNumber ≤ sequenceNumber then
      { mempool with
        sequenceNumberCache := cache
        transactions := mempool.transactions.rejectTransaction sender }
    else { mempool with sequenceNumberCache := cache }
  else
    let newSeqNumber := max currentSeqNumber (sequenceNumber + 1)
    { mempool with
      sequenceNumberCache := cache.insert sender newSeqNumber systemTime
      transactions := mempool.transactions.commitTransaction sender newSeqNumber }

def gc (systemTime now : Nat) : Mempool :=
  { mempool with
    transactions := mempool.transactions.gc now true
    sequenceNumberCache := mempool.sequenceNumberCache.gc systemTime }

def gcByExpirationTime (blockTime : Nat) : Mempool :=
  { mempool with transactions := mempool.transactions.gc blockTime false }

/-! ## Runs -/

inductive Operation where
  | addTxn (input : AddTxn)
  | removeTransaction (sender : AccountAddress) (sequenceNumber : Nat) (isRejected : Bool)
      (systemTime : Nat)
  | gc (systemTime now : Nat)
  | gcByExpirationTime (blockTime : Nat)
  deriving DecidableEq, Repr

def step : Operation → Mempool
  | .addTxn input => (mempool.addTxn input).1
  | .removeTransaction sender sequenceNumber isRejected systemTime =>
    mempool.removeTransaction sender sequenceNumber isRejected systemTime
  | .gc systemTime now => mempool.gc systemTime now
  | .gcByExpirationTime blockTime => mempool.gcByExpirationTime blockTime

def run (operations : List Operation) : Mempool := operations.foldl step (new config)

def Operation.Unready : Operation → Prop
  | .addTxn input => input.timelineState = .notReady ∨ input.timelineState = .nonQualified
  | .removeTransaction .. | .gc .. | .gcByExpirationTime .. => True

instance instDecidableUnready : DecidablePred Operation.Unready := fun _ => by
  unfold Operation.Unready
  split <;> infer_instance

theorem transactions_addTxn :
    (mempool.addTxn input).1.transactions = mempool.transactions ∧
        input.txn.sequenceNumber < mempool.currentSequenceNumber input ∨
      mempool.currentSequenceNumber input ≤ input.txn.sequenceNumber ∧
        Inserts mempool.transactions (mempool.txnInfo input)
          (mempool.currentSequenceNumber input) (mempool.addTxn input).1.transactions := by
  unfold addTxn
  simp only
  split
  next hlt => exact .inl ⟨rfl, hlt⟩
  next hge => exact .inr ⟨Nat.le_of_not_lt hge, inserts_insert _ _ _ input.random⟩

theorem changes_step {mempool : Mempool} {operation} (hunready : operation.Unready)
    (h : mempool.transactions.Consistent) :
    Changes mempool.transactions (mempool.step operation).transactions := by
  cases operation with
  | addTxn input =>
    rcases mempool.transactions_addTxn input with ⟨heq, -⟩ | ⟨hge, hinserts⟩
    · rw [step, heq]
      exact h.changes_self
    · refine h.changes_insert ?_ hge hinserts
      rcases hunready with hstate | hstate <;> simp [MempoolTransaction.isReady, txnInfo, hstate]
  | removeTransaction sender =>
    simp only [step, removeTransaction]
    split
    case isFalse => exact h.changes_commit sender _
    · split
      · exact .drops (h.1.drops_reject sender)
      · exact h.changes_self
  | gc _ now => exact h.changes_gc now true
  | gcByExpirationTime blockTime => exact h.changes_gc blockTime false

theorem consistent_step {mempool : Mempool} {operation} (hunready : operation.Unready)
    (h : mempool.transactions.Consistent) : (mempool.step operation).transactions.Consistent :=
  h.changes (changes_step hunready h)

theorem consistent_run {operations : List Operation}
    (hunready : ∀ operation ∈ operations, operation.Unready) :
    (run config operations).transactions.Consistent := by
  have hnew : (new config).transactions.Consistent := Consistent.empty _ _
  have halong : Along step (fun _ operation => operation.Unready) (new config) operations :=
    .of_forall fun _ => hunready
  exact Along.invariant (P := fun mempool => mempool.transactions.Consistent)
    (fun _ _ hstore hoperation => consistent_step hoperation hstore) hnew halong

end Mempool

end Loki.Diem.CoreMempool
