import Loki.Diem.CoreMempool.Index
import Mathlib.Data.List.Sort

/-!
# The transaction store of the mempool

`core_mempool/transaction_store.rs`.  An account without an entry and one whose map of transactions
is empty are read alike by every operation of the store, and the model does not tell them apart.
-/

namespace Loki.Diem.CoreMempool

open Loki.Foundation

inductive MempoolStatusCode where
  | accepted
  | invalidSeqNumber
  | mempoolIsFull
  | tooManyTransactions
  | invalidUpdate
  deriving DecidableEq, Repr

structure MempoolStatus where
  code : MempoolStatusCode
  message : String := ""
  deriving DecidableEq, Repr

abbrev AccountTransactions := BTreeMap Nat MempoolTransaction

structure TransactionStore where
  transactions : BTreeMap AccountAddress AccountTransactions := ∅
  priorityIndex : PriorityIndex := []
  /-- By the expiration time of the client. -/
  expirationTimeIndex : TTLIndex := []
  /-- By the expiration time of the system. -/
  systemTtlIndex : TTLIndex := []
  timelineIndex : TimelineIndex := {}
  /-- The transactions that cannot be included in the next block. -/
  parkingLotIndex : ParkingLotIndex := {}
  capacity : Nat
  capacityPerUser : Nat

namespace MempoolTransaction

variable (txn : MempoolTransaction)

def systemTtlKey : TTLOrderingKey := ⟨txn.expirationTime, txn.getSender, txn.getSequenceNumber⟩

/-- `Duration::from_secs`, in nanoseconds. -/
def fromSecs (secs : Nat) : Nat := secs * 1000000000

def expirationTimeKey : TTLOrderingKey :=
  ⟨fromSecs txn.txn.expirationTimestampSecs, txn.getSender, txn.getSequenceNumber⟩

def isReady : Bool :=
  match txn.timelineState with
  | .ready _ => true
  | .notReady | .nonQualified => false

end MempoolTransaction

namespace TransactionStore

variable (store : TransactionStore) (address : AccountAddress) (txn : MempoolTransaction)

def account : AccountTransactions := store.transactions[address]?.getD ∅

def setAccount (txns : AccountTransactions) : TransactionStore :=
  { store with transactions := store.transactions.insert address txns }

def find (pointer : TxnPointer) : Option MempoolTransaction := (store.account pointer.1)[pointer.2]?

def get (sequenceNumber : Nat) : Option SignedTransaction :=
  (store.find (address, sequenceNumber)).map MempoolTransaction.txn

def indexRemove : TransactionStore :=
  { store with
    systemTtlIndex := store.systemTtlIndex.remove txn.systemTtlKey
    expirationTimeIndex := store.expirationTimeIndex.remove txn.expirationTimeKey
    priorityIndex := store.priorityIndex.remove txn
    timelineIndex := store.timelineIndex.remove txn
    parkingLotIndex := store.parkingLotIndex.remove txn.pointer }

def erase (pointer : TxnPointer) : TransactionStore :=
  store.setAccount pointer.1 ((store.account pointer.1).erase pointer.2)

def removeAt (pointer : TxnPointer) : TransactionStore :=
  match store.find pointer with
  | some txn => (store.erase pointer).indexRemove txn
  | none => store

/-- The number zero is the current one or is refused before: a transaction has at least the
current number of its account. -/
def checkTxnReady (currSequenceNumber : Nat) : Bool :=
  txn.getSequenceNumber == currSequenceNumber ||
    (store.find (txn.getSender, txn.getSequenceNumber - 1)).any MempoolTransaction.isReady

/-- `random` selects the account of the parking lot that loses a transaction. -/
def checkIsFullAfterEviction (currSequenceNumber random : Nat) : TransactionStore × Bool :=
  let store :=
    if store.capacity ≤ store.systemTtlIndex.length ∧
        store.checkTxnReady txn currSequenceNumber then
      match store.parkingLotIndex.getPoppable random with
      | some pointer => store.removeAt pointer
      | none => store
    else store
  (store, decide (store.capacity ≤ store.systemTtlIndex.length))

/-! ## Promotion -/

def enterTimeline : TransactionStore :=
  if txn.timelineState = .notReady then
    let (timelineIndex, txn) := store.timelineIndex.insert txn
    let txns := (store.account txn.getSender).insert txn.getSequenceNumber txn
    { store.setAccount txn.getSender txns with timelineIndex := timelineIndex }
  else store

def promoteTxn : TransactionStore :=
  let store := { store with priorityIndex := store.priorityIndex.insert txn }
  let store := store.enterTimeline txn
  { store with parkingLotIndex := store.parkingLotIndex.remove txn.pointer }

/-- The loop of `process_ready_transactions`, with the number it stops at. -/
def promote (store : TransactionStore) (address : AccountAddress) :
    Nat → Nat → TransactionStore × Nat
  | 0, sequenceNumber => (store, sequenceNumber)
  | fuel + 1, sequenceNumber =>
    match store.find (address, sequenceNumber) with
    | none => (store, sequenceNumber)
    | some txn => promote (store.promoteTxn txn) address fuel (sequenceNumber + 1)

def parkTxn : TransactionStore :=
  { store with parkingLotIndex := store.parkingLotIndex.insert txn.pointer }

def range (txns : AccountTransactions) (p : Nat → Bool) : List MempoolTransaction :=
  (txns.filter fun number _ => p number).toList.map Prod.snd

def processReadyTransactions (currentSequenceNumber : Nat) : TransactionStore :=
  let fuel := (store.account address).size + 1
  let (store, sequenceNumber) := store.promote address fuel currentSequenceNumber
  let following := range (store.account address) (decide <| sequenceNumber < ·)
  (following.filter fun txn => !txn.isReady).foldl parkTxn store

/-! ## Removal -/

def cleanCommittedTransactions (sequenceNumber : Nat) : TransactionStore :=
  let txns := store.account address
  let active := txns.filter fun number _ => sequenceNumber ≤ number
  (range txns (decide <| · < sequenceNumber)).foldl indexRemove (store.setAccount address active)

def commitTransaction (account : AccountAddress) (accountSequenceNumber : Nat) : TransactionStore :=
  (store.cleanCommittedTransactions account accountSequenceNumber).processReadyTransactions account
    accountSequenceNumber

def rejectTransaction (account : AccountAddress) : TransactionStore :=
  let store' := { store with transactions := store.transactions.erase account }
  (range (store.account account) fun _ => true).foldl indexRemove store'

def demoteTxn : TransactionStore :=
  { store with
    parkingLotIndex := store.parkingLotIndex.insert txn.pointer
    priorityIndex := store.priorityIndex.remove txn
    timelineIndex := store.timelineIndex.remove txn }

/-- One expired transaction; `next` is the one after it. -/
def gcKey (key : TTLOrderingKey) (next : Option TTLOrderingKey) : TransactionStore :=
  let inRange (number : Nat) : Bool :=
    decide (key.sequenceNumber < number) &&
      (next.filter fun nextKey => key.address = nextKey.address).all fun nextKey =>
        decide (number < nextKey.sequenceNumber)
  let store := (range (store.account key.address) inRange).foldl demoteTxn store
  store.removeAt key.pointer

def gcLoop (store : TransactionStore) : List TTLOrderingKey → TransactionStore
  | [] => store
  | key :: keys => gcLoop (store.gcKey key keys.head?) keys

def sortKeys (keys : List TTLOrderingKey) : List TTLOrderingKey :=
  keys.insertionSort fun key other =>
    key.address < other.address ∨
      key.address = other.address ∧ key.sequenceNumber ≤ other.sequenceNumber

def gc (now : Nat) (bySystemTtl : Bool) : TransactionStore :=
  if bySystemTtl then
    let (index, gcTxns) := store.systemTtlIndex.gc now
    gcLoop { store with systemTtlIndex := index } (sortKeys gcTxns)
  else
    let (index, gcTxns) := store.expirationTimeIndex.gc now
    gcLoop { store with expirationTimeIndex := index } (sortKeys gcTxns)

/-! ## Insertion -/

def put : TransactionStore :=
  let txns := (store.account txn.getSender).insert txn.getSequenceNumber txn
  { store.setAccount txn.getSender txns with
    systemTtlIndex := store.systemTtlIndex.insert txn.systemTtlKey
    expirationTimeIndex := store.expirationTimeIndex.insert txn.expirationTimeKey }

def insertNew (currentSequenceNumber random : Nat) : TransactionStore × MempoolStatus :=
  let (store, isFull) := store.checkIsFullAfterEviction txn currentSequenceNumber random
  if isFull then
    let size := store.systemTtlIndex.length
    let capacity := store.capacity
    (store, ⟨.mempoolIsFull, s!"mempool size: {size}, capacity: {capacity}"⟩)
  else
    let store := store.cleanCommittedTransactions txn.getSender currentSequenceNumber
    let length := (store.account txn.getSender).size
    let capacityPerUser := store.capacityPerUser
    if capacityPerUser ≤ length then
      (store, ⟨.tooManyTransactions,
        s!"txns length: {length} capacity per user: {capacityPerUser}"⟩)
    else
      let store := store.put txn
      (store.processReadyTransactions txn.getSender currentSequenceNumber, ⟨.accepted, ""⟩)

def replaces (txn current : MempoolTransaction) : Bool :=
  current.txn.maxGasAmount == txn.txn.maxGasAmount && current.txn.payload == txn.txn.payload &&
    current.txn.expirationTimestampSecs == txn.txn.expirationTimestampSecs &&
    decide (current.getGasPrice < txn.getGasPrice)

def insert (currentSequenceNumber random : Nat) : TransactionStore × MempoolStatus :=
  match store.find txn.pointer with
  | none => store.insertNew txn currentSequenceNumber random
  | some current =>
    if current.txn = txn.txn then (store, ⟨.accepted, ""⟩)
    else if replaces txn current then
      (store.removeAt txn.pointer).insertNew txn currentSequenceNumber random
    else
      let gasPrice := txn.getGasPrice
      (store, ⟨.invalidUpdate, s!"Failed to update gas price to {gasPrice}"⟩)

end TransactionStore

end Loki.Diem.CoreMempool
