import Loki.Fisco.Types
import Loki.Foundation.Run
import Mathlib.Algebra.Order.Ring.Int
import Mathlib.Data.List.Basic

/-!
# The transaction pool

`MemoryStorage` of `bcos-txpool/txpool/storage/MemoryStorage.cpp` with the two nonce checkers
and the validator of `bcos-txpool/txpool/validator`.  The pool refuses a transaction whose nonce
is among those of the last `m_blockLimit` blocks, and one whose block limit is not in the window
of the same size that follows the current block.

Every operation is one step.  What is written for other modules only is left out: the counter
of sealed transactions, the set of missed ones, times and callbacks.
-/

namespace Loki.Fisco

open Loki.Foundation List

abbrev Nonce := Nat

/-- `NonceType(-1)`, the nonce of a submit result that carries none. -/
def noNonce : Nonce := 2 ^ 256 - 1

structure Transaction where
  hash : HashType
  nonce : Nonce
  blockLimit : Int
  groupId : String
  chainId : String
  deriving DecidableEq, Repr

/-- A transaction object: the transaction, whether its signature verifies, and the marks that
the pool sets. -/
structure PoolTransaction extends Transaction where
  signed : Bool
  invalid : Bool
  sealed : Bool
  batchId : Int
  batchHash : HashType
  deriving DecidableEq, Repr

/-- `TransactionSubmitResult`: a transaction of a block, by its hash, and the nonce that was
set. -/
structure SubmitResult where
  transaction : Transaction
  nonce : Nonce
  deriving DecidableEq, Repr

def SubmitResult.txHash (result : SubmitResult) : HashType := result.transaction.hash

inductive TransactionStatus where
  | none
  | nonceCheckFail
  | blockLimitCheckFail
  | txPoolIsFull
  | alreadyInTxPool
  | invalidChainId
  | invalidGroupId
  | invalidSignature
  deriving DecidableEq, Repr

/-! ## The nonce checkers -/

/-- `TxPoolNonceChecker`: the set of nonces in use. -/
structure TxPoolNonceChecker where
  nonceCache : List Nonce
  deriving DecidableEq, Repr

namespace TxPoolNonceChecker

variable (c : TxPoolNonceChecker)

def checkNonce (tx : Transaction) (shouldUpdate : Bool) : TransactionStatus × TxPoolNonceChecker :=
  if tx.nonce ∈ c.nonceCache then (.nonceCheckFail, c)
  else if shouldUpdate then (.none, ⟨c.nonceCache.insert tx.nonce⟩)
  else (.none, c)

def batchInsert (nonceList : List Nonce) : TxPoolNonceChecker := ⟨nonceList ∪ c.nonceCache⟩

def batchRemove (nonceList : List Nonce) : TxPoolNonceChecker :=
  ⟨c.nonceCache.filter (· ∉ nonceList)⟩

variable {c : TxPoolNonceChecker} {nonceList : List Nonce}

@[simp] theorem mem_batchInsert {n} :
    n ∈ (c.batchInsert nonceList).nonceCache ↔ n ∈ nonceList ∨ n ∈ c.nonceCache := by
  simp [batchInsert]

@[simp] theorem mem_batchRemove {n} :
    n ∈ (c.batchRemove nonceList).nonceCache ↔ n ∈ c.nonceCache ∧ n ∉ nonceList := by
  simp [batchRemove]

end TxPoolNonceChecker

open TxPoolNonceChecker (mem_batchInsert mem_batchRemove)

/-- The nonces on the chain, and which block each of them came with. -/
structure LedgerNonceChecker extends TxPoolNonceChecker where
  blockNumber : Nat
  blockLimit : Nat
  blockNonceCache : List (Nat × List Nonce)
  deriving DecidableEq, Repr

namespace LedgerNonceChecker

variable (c : LedgerNonceChecker) (tx : Transaction)

def InBlockLimit : Prop :=
  (c.blockNumber : Int) < tx.blockLimit ∧ tx.blockLimit ≤ c.blockNumber + c.blockLimit

instance (c : LedgerNonceChecker) (tx : Transaction) : Decidable (c.InBlockLimit tx) :=
  inferInstanceAs (Decidable (_ ∧ _))

def checkBlockLimit : TransactionStatus :=
  if (c.blockNumber : Int) ≥ tx.blockLimit ∨ (c.blockNumber : Int) + c.blockLimit < tx.blockLimit
  then .blockLimitCheckFail
  else .none

/-- `LedgerNonceChecker::checkNonce`, which nobody asks to update. -/
def checkNonce : TransactionStatus :=
  match (c.toTxPoolNonceChecker.checkNonce tx false).1 with
  | .none => c.checkBlockLimit tx
  | status => status

def withBlock (cache : List (Nat × List Nonce)) (batchId : Nat) (nonceList : List Nonce) :
    List (Nat × List Nonce) :=
  if (cache.lookup batchId).isSome then cache else (batchId, nonceList) :: cache

/-- The nonces of the block that leaves the window when `batchId` comes. -/
def expired (cache : List (Nat × List Nonce)) (batchId blockLimit : Nat) : List Nonce :=
  if blockLimit < batchId then (cache.lookup (batchId - blockLimit)).getD [] else []

def batchInsert (batchId : Nat) (nonceList : List Nonce) : LedgerNonceChecker :=
  let blockNumber := if c.blockNumber < batchId then batchId else c.blockNumber
  let inserted := c.toTxPoolNonceChecker.batchInsert nonceList
  let cache := withBlock c.blockNonceCache batchId nonceList
  { toTxPoolNonceChecker := inserted.batchRemove (expired cache batchId c.blockLimit)
    blockNumber := blockNumber
    blockLimit := c.blockLimit
    blockNonceCache :=
      if c.blockLimit < batchId then cache.filter (·.1 ≠ batchId - c.blockLimit) else cache }

theorem mem_withBlock {cache batchId nonceList}
    {entry : Nat × List Nonce} (h : entry ∈ withBlock cache batchId nonceList) :
    entry = (batchId, nonceList) ∨ entry ∈ cache := by
  simp only [withBlock] at h
  split_ifs at h
  · exact .inr h
  · exact mem_cons.mp h

theorem checkBlockLimit_eq :
    c.checkBlockLimit tx = if c.InBlockLimit tx then .none else .blockLimitCheckFail := by
  by_cases hlimit : c.InBlockLimit tx
  · rw [if_pos hlimit]
    simp only [InBlockLimit] at hlimit
    exact if_neg (by omega)
  · rw [if_neg hlimit]
    simp only [InBlockLimit] at hlimit
    exact if_pos (by omega)

theorem checkNonce_eq :
    c.checkNonce tx =
      if tx.nonce ∈ c.nonceCache then .nonceCheckFail
      else if c.InBlockLimit tx then .none
      else .blockLimitCheckFail := by
  rw [← checkBlockLimit_eq]
  by_cases hmem : tx.nonce ∈ c.nonceCache
  · simp [checkNonce, TxPoolNonceChecker.checkNonce, hmem]
  · simp [checkNonce, TxPoolNonceChecker.checkNonce, hmem]

end LedgerNonceChecker

open LedgerNonceChecker

/-! ## The pool -/

/-- `MemoryStorage` with its validator.  `accepted` records the block number at which each
transaction was accepted, `committed` the block each one was committed in. -/
structure TxPool where
  groupId : String
  chainId : String
  poolLimit : Nat
  ledgerNonceChecker : LedgerNonceChecker
  txPoolNonceChecker : TxPoolNonceChecker
  txsTable : List PoolTransaction
  invalidTxs : List HashType
  invalidNonces : List Nonce
  accepted : List (Transaction × Nat)
  committed : List (Transaction × Nat)
  deriving DecidableEq, Repr

namespace TxPool

variable (groupId chainId : String) (poolLimit blockLimit : Nat) (table : List PoolTransaction)
  (txHash : HashType)

def new : TxPool where
  groupId := groupId
  chainId := chainId
  poolLimit := poolLimit
  ledgerNonceChecker := ⟨⟨[]⟩, 0, blockLimit, []⟩
  txPoolNonceChecker := ⟨[]⟩
  txsTable := []
  invalidTxs := []
  invalidNonces := []
  accepted := []
  committed := []

def find : Option PoolTransaction :=
  table.find? (·.hash = txHash)

def erase : List PoolTransaction := table.filter (·.hash ≠ txHash)

def mark (f : PoolTransaction → PoolTransaction) : List PoolTransaction :=
  table.map fun tx => if tx.hash = txHash then f tx else tx

variable (s : TxPool) (tx : PoolTransaction)

def submittedToChain (tx : Transaction) : TransactionStatus := s.ledgerNonceChecker.checkNonce tx

def verify : TransactionStatus × TxPool :=
  if tx.invalid then (.invalidSignature, s)
  else if tx.groupId ≠ s.groupId then (.invalidGroupId, s)
  else if tx.chainId ≠ s.chainId then (.invalidChainId, s)
  else match s.submittedToChain tx.toTransaction with
    | .none =>
      if !tx.signed then (.invalidSignature, s)
      else
        let checked := s.txPoolNonceChecker.checkNonce tx.toTransaction true
        (checked.1, { s with txPoolNonceChecker := checked.2 })
    | status => (status, s)

def insert : TransactionStatus × TxPool :=
  match find s.txsTable tx.hash with
  | some _ => (.alreadyInTxPool, s)
  | none => (.none, { s with txsTable := s.txsTable ++ [tx] })

def enforceSubmitTransaction : TransactionStatus × TxPool :=
  if s.submittedToChain tx.toTransaction = .nonceCheckFail then (.nonceCheckFail, s)
  else match find s.txsTable tx.hash with
    | some cached =>
      if !cached.sealed || cached.batchHash = 0 then
        (.none, { s with txsTable := mark s.txsTable tx.hash fun t =>
          { t with sealed := true, batchId := tx.batchId, batchHash := tx.batchHash } })
      else if cached.batchId = tx.batchId ∧ cached.batchHash = tx.batchHash then (.none, s)
      else (.alreadyInTxPool, s)
    | none =>
      -- what `insert` returns is not looked at
      (.none, (s.insert { tx with sealed := true }).2)

def verifyAndSubmitTransaction (checkPoolLimit : Bool) : TransactionStatus × TxPool :=
  if checkPoolLimit ∧ s.poolLimit ≤ s.txsTable.length then (.txPoolIsFull, s)
  else match find s.txsTable tx.hash with
    | some _ => (.alreadyInTxPool, s)
    | none =>
      match s.verify tx with
      | (.none, s) => s.insert tx
      | (status, s) => (status, s)

def submitTransaction (enforceImport checkPoolLimit : Bool) : TransactionStatus × TxPool :=
  if enforceImport then s.enforceSubmitTransaction tx
  else s.verifyAndSubmitTransaction tx checkPoolLimit

/-- Take the transactions of a block out of the table: what is left, and the nonces of the
block. -/
def removeSubmitted : List PoolTransaction → List SubmitResult →
    List PoolTransaction × List Nonce
  | table, [] => (table, [])
  | table, result :: results =>
    let rest := removeSubmitted (erase table result.txHash) results
    match find table result.txHash with
    | some tx => (rest.1, tx.nonce :: rest.2)
    | none => (rest.1, if result.nonce ≠ noNonce then result.nonce :: rest.2 else rest.2)

def batchRemove (batchId : Nat) (results : List SubmitResult) : TxPool :=
  let removed := removeSubmitted s.txsTable results
  { s with
    txsTable := removed.1
    ledgerNonceChecker := s.ledgerNonceChecker.batchInsert batchId removed.2
    txPoolNonceChecker := s.txPoolNonceChecker.batchRemove removed.2 }

/-- One turn of the loop of `batchFetchTxs`: the pool, and whether the transaction is fetched. -/
def fetchOne (avoidTxs : List HashType) (avoidDuplicate : Bool)
    (tx : PoolTransaction) : TxPool × Bool :=
  if tx.hash ∈ s.invalidTxs then (s, false)
  else if s.submittedToChain tx.toTransaction = .nonceCheckFail then
    -- the nonce goes to the set of hashes
    ({ s with invalidTxs := tx.nonce :: tx.hash :: s.invalidTxs }, false)
  else if s.submittedToChain tx.toTransaction = .blockLimitCheckFail ∧ !tx.sealed then
    ({ s with
      invalidTxs := tx.hash :: s.invalidTxs
      invalidNonces := tx.nonce :: s.invalidNonces }, false)
  else if tx.hash ∈ avoidTxs then (s, false)
  else if avoidDuplicate && tx.sealed then (s, false)
  else
    ({ s with txsTable := mark s.txsTable tx.hash fun t =>
        { t with sealed := true, batchId := -1, batchHash := 0 } }, true)

/-- `batchFetchTxs` on the table in the order in which it is gone through, with the hashes that
were fetched. -/
def batchFetchTxs (avoidTxs : List HashType) (avoidDuplicate : Bool) (txsLimit : Nat) :
    List HashType → List HashType → TxPool → TxPool × List HashType
  | [], fetched, s => (s, fetched)
  | txHash :: order, fetched, s =>
    match find s.txsTable txHash with
    | none => batchFetchTxs avoidTxs avoidDuplicate txsLimit order fetched s
    | some tx =>
      match s.fetchOne avoidTxs avoidDuplicate tx with
      | (s, false) => batchFetchTxs avoidTxs avoidDuplicate txsLimit order fetched s
      | (s, true) =>
        if txsLimit ≤ fetched.length + 1 then (s, fetched ++ [txHash])
        else batchFetchTxs avoidTxs avoidDuplicate txsLimit order (fetched ++ [txHash]) s

def removeInvalidTxs : TxPool :=
  if s.invalidTxs = [] then s
  else
    { s with
      txsTable := s.invalidTxs.foldl erase s.txsTable
      txPoolNonceChecker := s.txPoolNonceChecker.batchRemove s.invalidNonces
      invalidTxs := []
      invalidNonces := [] }

/-- What `batchMarkTxs` does to one transaction. -/
def markOne (batchId : Int) (batchHash : HashType) (sealFlag : Bool) (tx : PoolTransaction) :
    PoolTransaction :=
  if tx.batchHash ≠ 0 ∧ tx.batchHash ≠ batchHash ∧ !sealFlag then tx
  else if sealFlag then { tx with sealed := true, batchId := batchId, batchHash := batchHash }
  else { tx with sealed := false }

def batchMarkTxs (txs : List HashType) (batchId : Int) (batchHash : HashType)
    (sealFlag : Bool) : TxPool :=
  let marked := markOne batchId batchHash sealFlag
  { s with txsTable := txs.foldl (fun table txHash => mark table txHash marked) s.txsTable }

def batchMarkAllTxs (sealFlag : Bool) : TxPool :=
  { s with txsTable := s.txsTable.map fun tx =>
      if sealFlag then { tx with sealed := true }
      else { tx with sealed := false, batchId := -1, batchHash := 0 } }

def clear : TxPool := { s with txsTable := [] }

/-! ## Runs -/

inductive Input where
  | submitTransaction (tx : PoolTransaction) (enforceImport checkPoolLimit : Bool)
  | batchRemove (batchId : Nat) (results : List SubmitResult)
  | batchFetchTxs (order avoidTxs : List HashType) (avoidDuplicate : Bool) (txsLimit : Nat)
  | removeInvalidTxs
  | batchMarkTxs (txs : List HashType) (batchId : Int) (batchHash : HashType) (sealFlag : Bool)
  | batchMarkAllTxs (sealFlag : Bool)
  | clear
  deriving DecidableEq, Repr

def noteAccepted (tx : Transaction) (status : TransactionStatus) : TxPool :=
  if status = .none then
    { s with accepted := s.accepted ++ [(tx, s.ledgerNonceChecker.blockNumber)] }
  else s

def noteCommitted (batchId : Nat) (results : List SubmitResult) : TxPool :=
  { s with committed := s.committed ++ results.map fun result => (result.transaction, batchId) }

def step : Input → TxPool
  | .submitTransaction tx enforceImport checkPoolLimit =>
    let submitted := s.submitTransaction tx enforceImport checkPoolLimit
    submitted.2.noteAccepted tx.toTransaction submitted.1
  | .batchRemove batchId results => (s.batchRemove batchId results).noteCommitted batchId results
  | .batchFetchTxs order avoidTxs avoidDuplicate txsLimit =>
    (batchFetchTxs avoidTxs avoidDuplicate txsLimit order [] s).1
  | .removeInvalidTxs => s.removeInvalidTxs
  | .batchMarkTxs txs batchId batchHash sealFlag => s.batchMarkTxs txs batchId batchHash sealFlag
  | .batchMarkAllTxs sealFlag => s.batchMarkAllTxs sealFlag
  | .clear => s.clear

/-- What the runs are about: the blocks come one after the other, a transaction of a block was
accepted before it, and two transactions of the chain have different nonces. -/
def Chained : Input → Prop
  | .batchRemove batchId results =>
    batchId = s.ledgerNonceChecker.blockNumber + 1 ∧
      (∀ result ∈ results, ∃ a ∈ s.accepted, a.1 = result.transaction ∧ a.2 < batchId) ∧
      ∀ result ∈ results,
        (∀ c ∈ s.committed, c.1.nonce = result.transaction.nonce → c.1 = result.transaction) ∧
        ∀ other ∈ results, other.transaction.nonce = result.transaction.nonce →
          other.transaction = result.transaction
  | _ => True

instance (s : TxPool) : DecidablePred s.Chained := fun _ => by
  unfold Chained
  split <;> infer_instance

def KnowsNonce (result : SubmitResult) : Option PoolTransaction → Prop
  | some tx => tx.toTransaction = result.transaction
  | none => result.nonce = result.transaction.nonce ∧ result.nonce ≠ noNonce

instance (result : SubmitResult) : ∀ entry, Decidable (KnowsNonce result entry)
  | some _ => inferInstanceAs (Decidable (_ = _))
  | none => inferInstanceAs (Decidable (_ ∧ _))

def Delivered : List PoolTransaction → List SubmitResult → Prop
  | _, [] => True
  | table, result :: results =>
    KnowsNonce result (find table result.txHash) ∧
      Delivered (erase table result.txHash) results

instance instDecidableDelivered : ∀ table results, Decidable (Delivered table results)
  | _, [] => isTrue trivial
  | table, result :: results =>
    have : Decidable (Delivered (erase table result.txHash) results) :=
      instDecidableDelivered _ results
    inferInstanceAs (Decidable (_ ∧ _))

/-- An enforced import is of a transaction in its block limit, and the pool gets the nonces of
every block. -/
def Guarded : Input → Prop
  | .submitTransaction tx enforceImport _ =>
    enforceImport = true → s.ledgerNonceChecker.InBlockLimit tx.toTransaction
  | .batchRemove _ results => Delivered s.txsTable results
  | _ => True

instance (s : TxPool) : DecidablePred s.Guarded := fun _ => by
  unfold Guarded
  split <;> infer_instance

def Replayed : Input → Prop
  | .submitTransaction tx enforceImport checkPoolLimit =>
    (∃ c ∈ s.committed, c.1 = tx.toTransaction) ∧
      (s.submitTransaction tx enforceImport checkPoolLimit).1 = .none
  | _ => False

instance (s : TxPool) : DecidablePred s.Replayed := fun _ => by
  unfold Replayed
  split <;> infer_instance

/-! ## What the operations leave as it is -/

/-- The chain, as the pool knows it, and the records. -/
def known : LedgerNonceChecker × List (Transaction × Nat) × List (Transaction × Nat) :=
  (s.ledgerNonceChecker, s.accepted, s.committed)

theorem verify_known : (s.verify tx).2.known = s.known := by
  unfold verify
  repeat' split
  all_goals rfl

theorem insert_known : (s.insert tx).2.known = s.known := by
  simp only [insert]
  split <;> rfl

theorem enforceSubmitTransaction_known : (s.enforceSubmitTransaction tx).2.known = s.known := by
  simp only [enforceSubmitTransaction]
  split_ifs
  · rfl
  · split
    · split_ifs <;> rfl
    · exact insert_known s _

theorem verifyAndSubmitTransaction_known (checkPoolLimit : Bool) :
    (s.verifyAndSubmitTransaction tx checkPoolLimit).2.known = s.known := by
  have hverify := verify_known s tx
  simp only [verifyAndSubmitTransaction]
  split_ifs
  · rfl
  · split
    · rfl
    · split
      next t heq =>
        rw [heq] at hverify
        exact (insert_known t tx).trans hverify
      next status t hne heq =>
        rw [heq] at hverify
        exact hverify

theorem submitTransaction_known (enforceImport checkPoolLimit : Bool) :
    (s.submitTransaction tx enforceImport checkPoolLimit).2.known = s.known := by
  cases enforceImport with
  | true => exact enforceSubmitTransaction_known s tx
  | false => exact verifyAndSubmitTransaction_known s tx checkPoolLimit

variable (avoidTxs : List HashType) (avoidDuplicate : Bool)

theorem fetchOne_known : (s.fetchOne avoidTxs avoidDuplicate tx).1.known = s.known := by
  simp only [fetchOne]
  split_ifs <;> rfl

theorem batchFetchTxs_known (txsLimit : Nat) (order fetched : List HashType) :
    (batchFetchTxs avoidTxs avoidDuplicate txsLimit order fetched s).1.known = s.known := by
  induction order generalizing fetched s with
  | nil => rfl
  | cons _ _ ih =>
    simp only [batchFetchTxs]
    split
    · exact ih s fetched
    next tx hfind =>
      have hone := fetchOne_known s tx avoidTxs avoidDuplicate
      split
      next t heq =>
        rw [heq] at hone
        exact (ih t fetched).trans hone
      next t heq =>
        rw [heq] at hone
        split_ifs
        · exact hone
        · exact (ih t _).trans hone

theorem removeInvalidTxs_known : s.removeInvalidTxs.known = s.known := by
  simp only [removeInvalidTxs]
  split_ifs <;> rfl

variable {s : TxPool} {tx : PoolTransaction} {checkPoolLimit enforceImport : Bool}
  {results : List SubmitResult}

theorem submittedToChain_of_verify (h : (s.verify tx).1 = .none) :
    s.submittedToChain tx.toTransaction = .none := by
  unfold verify at h
  split at h
  · cases h
  split at h
  · cases h
  split at h
  · cases h
  split at h
  · assumption
  · contradiction

theorem verify_of_verifyAndSubmit (h : (s.verifyAndSubmitTransaction tx checkPoolLimit).1 = .none) :
    (s.verify tx).1 = .none := by
  unfold verifyAndSubmitTransaction at h
  split at h
  · cases h
  split at h
  · cases h
  split at h
  next t heq => rw [heq]
  next status t hne heq => exact absurd h hne

theorem submitTransaction_none
    (h : (s.submitTransaction tx enforceImport checkPoolLimit).1 = .none) :
    tx.nonce ∉ s.ledgerNonceChecker.nonceCache ∧
      (enforceImport = false → s.ledgerNonceChecker.InBlockLimit tx.toTransaction) := by
  cases enforceImport with
  | true =>
    refine ⟨?_, by simp⟩
    intro hmem
    simp [submitTransaction, enforceSubmitTransaction, submittedToChain, checkNonce_eq, hmem] at h
  | false =>
    have hchain := submittedToChain_of_verify (verify_of_verifyAndSubmit h)
    simp only [submittedToChain, checkNonce_eq] at hchain
    split_ifs at hchain with hmem hlimit
    exact ⟨hmem, fun _ => hlimit⟩

theorem removeSubmitted_nonces {table} (h : Delivered table results) :
    (removeSubmitted table results).2 = results.map (·.transaction.nonce) := by
  induction results generalizing table with
  | nil => rfl
  | cons result _ ih =>
    obtain ⟨hknows, hrest⟩ := h
    have hrest := ih hrest
    simp only [removeSubmitted, map_cons]
    cases hfind : find table result.txHash with
    | some tx =>
      rw [hfind] at hknows
      have htx : tx.toTransaction = result.transaction := hknows
      simp [hrest, htx]
    | none =>
      rw [hfind] at hknows
      obtain ⟨hnonce, hsome⟩ := hknows
      simp only [hrest]
      rw [if_pos hsome, hnonce]

/-! ## The invariant -/

/-- The nonce of a committed transaction is on the chain as the pool knows it, or the transaction
is out of its block limit. -/
structure Inv (s : TxPool) : Prop where
  accepted : ∀ a ∈ s.accepted, a.1.blockLimit ≤ a.2 + s.ledgerNonceChecker.blockLimit
  limited : ∀ c ∈ s.committed, c.1.blockLimit < c.2 + s.ledgerNonceChecker.blockLimit
  cached : ∀ entry ∈ s.ledgerNonceChecker.blockNonceCache, ∀ nonce ∈ entry.2,
    ∃ c ∈ s.committed, c.2 = entry.1 ∧ c.1.nonce = nonce
  covered : ∀ c ∈ s.committed, c.1.nonce ∈ s.ledgerNonceChecker.nonceCache ∨
    c.1.blockLimit ≤ s.ledgerNonceChecker.blockNumber
  distinct : ∀ c ∈ s.committed, ∀ d ∈ s.committed, c.1.nonce = d.1.nonce → c.1 = d.1

theorem inv_new : Inv (new groupId chainId poolLimit blockLimit) := by constructor <;> simp [new]

theorem Inv.of_known {s'} (h : Inv s) (hknown : s'.known = s.known) : Inv s' := by
  simp only [known, Prod.mk.injEq] at hknown
  obtain ⟨hledger, haccepted, hcommitted⟩ := hknown
  constructor
  all_goals simp only [hledger, haccepted, hcommitted]
  exacts [h.accepted, h.limited, h.cached, h.covered, h.distinct]

theorem Inv.submitTransaction (h : Inv s)
    (hguard : s.Guarded (.submitTransaction tx enforceImport checkPoolLimit)) :
    Inv (s.step (.submitTransaction tx enforceImport checkPoolLimit)) := by
  have hknown := submitTransaction_known s tx enforceImport checkPoolLimit
  have hinv := h.of_known hknown
  simp only [step, noteAccepted]
  split_ifs with hstatus
  · refine ⟨?_, hinv.limited, hinv.cached, hinv.covered, hinv.distinct⟩
    intro a ha
    rcases mem_append.mp ha with ha | ha
    · exact hinv.accepted a ha
    · have hlimit : s.ledgerNonceChecker.InBlockLimit tx.toTransaction := by
        cases enforceImport with
        | true => exact hguard rfl
        | false => exact (submitTransaction_none hstatus).2 rfl
      rw [mem_singleton.mp ha, (Prod.mk.inj hknown).1]
      exact hlimit.2
  · exact hinv

/-- The block that leaves the window takes away nonces of its own transactions only, and they
are all out of their block limit by then. -/
theorem blockLimit_le_of_expired {committed : List (Transaction × Nat)}
    {cache} {blockLimit batchId : Nat} {c : Transaction × Nat}
    (hlimited : ∀ d ∈ committed, d.1.blockLimit < d.2 + blockLimit)
    (hcached : ∀ entry ∈ cache, ∀ nonce ∈ entry.2,
      ∃ d ∈ committed, d.2 = entry.1 ∧ d.1.nonce = nonce)
    (hdistinct : ∀ d ∈ committed, d.1.nonce = c.1.nonce → d.1 = c.1)
    (h : c.1.nonce ∈ expired cache batchId blockLimit) : c.1.blockLimit ≤ batchId := by
  simp only [expired] at h
  split_ifs at h with hbatch
  · cases hlookup : cache.lookup (batchId - blockLimit) with
    | none => simp [hlookup] at h
    | some nonces =>
      simp only [hlookup, Option.getD_some] at h
      obtain ⟨front, back, rfl, -⟩ := lookup_eq_some_iff.mp hlookup
      have hentry : (batchId - blockLimit, nonces) ∈
          front ++ (batchId - blockLimit, nonces) :: back := by simp
      obtain ⟨d, hd, _, hnonce⟩ := hcached _ hentry _ h
      have hlimit := hlimited d hd
      rw [hdistinct d hd hnonce] at hlimit
      omega
  · cases h

theorem Inv.batchRemove (h : Inv s) {batchId : Nat}
    (hchained : s.Chained (.batchRemove batchId results))
    (hguard : s.Guarded (.batchRemove batchId results)) :
    Inv (s.step (.batchRemove batchId results)) := by
  obtain ⟨_, haccepted, hdiffer⟩ := hchained
  have hnonces := removeSubmitted_nonces hguard
  set t := s.step (.batchRemove batchId results) with ht
  have hmem : ∀ c, c ∈ t.committed ↔
      c ∈ s.committed ∨ ∃ result ∈ results, (result.transaction, batchId) = c := by
    intro c
    simp [ht, step, noteCommitted, TxPool.batchRemove]
  have hlimited : ∀ c ∈ t.committed, c.1.blockLimit < c.2 + s.ledgerNonceChecker.blockLimit := by
    intro c hc
    rcases (hmem c).mp hc with hc | ⟨result, hresult, rfl⟩
    · exact h.limited c hc
    · obtain ⟨a, ha, htx, _⟩ := haccepted result hresult
      have hlimit := h.accepted a ha
      rw [htx] at hlimit
      simp only
      omega
  have hdistinct : ∀ c ∈ t.committed, ∀ d ∈ t.committed, c.1.nonce = d.1.nonce → c.1 = d.1 := by
    intro c hc d hd hnonce
    rcases (hmem c).mp hc with hc | ⟨result, hresult, rfl⟩
    · rcases (hmem d).mp hd with hd | ⟨other, hother, rfl⟩
      · exact h.distinct c hc d hd hnonce
      · exact (hdiffer other hother).1 c hc hnonce
    · rcases (hmem d).mp hd with hd | ⟨other, hother, rfl⟩
      · exact ((hdiffer result hresult).1 d hd hnonce.symm).symm
      · exact (hdiffer other hother).2 result hresult hnonce
  have hcached : ∀ entry ∈ withBlock s.ledgerNonceChecker.blockNonceCache
        batchId (results.map (·.transaction.nonce)),
      ∀ nonce ∈ entry.2, ∃ c ∈ t.committed, c.2 = entry.1 ∧ c.1.nonce = nonce := by
    intro entry hentry nonce hnonce
    rcases mem_withBlock hentry with rfl | hentry
    · obtain ⟨result, hresult, rfl⟩ := mem_map.mp hnonce
      exact ⟨_, (hmem _).mpr (.inr ⟨result, hresult, rfl⟩), rfl, rfl⟩
    · obtain ⟨c, hc, hrest⟩ := h.cached entry hentry nonce hnonce
      exact ⟨c, (hmem c).mpr (.inl hc), hrest⟩
  have hledger : t.ledgerNonceChecker =
      s.ledgerNonceChecker.batchInsert batchId (results.map (·.transaction.nonce)) := by
    rw [← hnonces]
    rfl
  constructor
  · rw [hledger]
    exact h.accepted
  · rw [hledger]
    exact hlimited
  · rw [hledger]
    intro entry hentry
    simp only [batchInsert] at hentry
    split_ifs at hentry
    · exact hcached entry (mem_filter.mp hentry).1
    · exact hcached entry hentry
  · rw [hledger]
    intro c hc
    -- what is not on the chain any more has left with the block that is now out of the window
    by_cases hexpired : c.1.nonce ∈ expired
        (withBlock s.ledgerNonceChecker.blockNonceCache batchId
          (results.map (·.transaction.nonce))) batchId s.ledgerNonceChecker.blockLimit
    · right
      have hle := blockLimit_le_of_expired hlimited hcached
        (fun d hd hnonce => hdistinct d hd c hc hnonce) hexpired
      simp only [batchInsert]
      split_ifs <;> omega
    · rcases (hmem c).mp hc with hold | ⟨result, hresult, rfl⟩
      · rcases h.covered c hold with hnonce | _
        · left
          simp only [batchInsert, mem_batchRemove, mem_batchInsert]
          exact ⟨.inr hnonce, hexpired⟩
        · right
          simp only [batchInsert]
          split_ifs <;> omega
      · left
        simp only [batchInsert, mem_batchRemove, mem_batchInsert]
        exact ⟨.inl (mem_map.mpr ⟨result, hresult, rfl⟩), hexpired⟩
  · exact hdistinct

theorem Inv.step (h : Inv s) {input} (hinput : s.Chained input ∧ s.Guarded input) :
    Inv (s.step input) := by
  cases input with
  | submitTransaction => exact h.submitTransaction hinput.2
  | batchRemove => exact h.batchRemove hinput.1 hinput.2
  | batchFetchTxs order avoidTxs avoidDuplicate txsLimit =>
    exact h.of_known (batchFetchTxs_known s avoidTxs avoidDuplicate txsLimit order [])
  | removeInvalidTxs => exact h.of_known (removeInvalidTxs_known s)
  | batchMarkTxs | batchMarkAllTxs | clear => exact h.of_known rfl

theorem Inv.not_replayed (h : Inv s) {input} (hguard : s.Guarded input) : ¬ s.Replayed input := by
  cases input with
  | submitTransaction tx enforceImport =>
    rintro ⟨⟨c, hc, htx⟩, hstatus⟩
    obtain ⟨hnonce, hnormal⟩ := submitTransaction_none hstatus
    have hlimit : s.ledgerNonceChecker.InBlockLimit tx.toTransaction := by
      cases enforceImport with
      | true => exact hguard rfl
      | false => exact hnormal rfl
    have hcovered := h.covered c hc
    rw [htx] at hcovered
    rcases hcovered with hmem | _
    · exact hnonce hmem
    · have hlt := hlimit.1
      omega
  | _ => exact id

def transactionOf (hash : HashType) (nonce : Nonce) (blockLimit : Int) : PoolTransaction where
  hash := hash
  nonce := nonce
  blockLimit := blockLimit
  groupId := "group"
  chainId := "chain"
  signed := true
  invalid := false
  sealed := false
  batchId := -1
  batchHash := 0

def blockOf (batchId : Nat) (tx : PoolTransaction) : Input :=
  .batchRemove batchId [⟨tx.toTransaction, noNonce⟩]

/-- Both modes, a transaction that is submitted twice while its nonce is kept, and two blocks
more after which it is out of its block limit. -/
def guardedRun : List Input :=
  [.submitTransaction (transactionOf 10 1 2) false true,
    .submitTransaction (transactionOf 20 2 2) true false,
    .batchFetchTxs [10, 20] [] true 5, blockOf 1 (transactionOf 10 1 2),
    .submitTransaction (transactionOf 10 1 2) false true,
    .submitTransaction (transactionOf 10 1 2) true true,
    blockOf 2 (transactionOf 20 2 2), .batchRemove 3 [],
    .submitTransaction (transactionOf 10 1 2) false true]

/-- Two blocks after its own the nonce is forgotten, and an enforced import does not look at the
block limit. -/
def expiredRun : List Input :=
  [.submitTransaction (transactionOf 10 1 2) false true, blockOf 1 (transactionOf 10 1 2),
    .batchRemove 2 [], .batchRemove 3 [], .submitTransaction (transactionOf 10 1 2) true false]

/-- An enforced import takes a transaction whose block limit is far away; when its nonce is
forgotten it is in the block limit, and the normal mode takes it too. -/
def farRun : List Input :=
  [.submitTransaction (transactionOf 10 1 5) true false, blockOf 1 (transactionOf 10 1 5),
    .batchRemove 2 [], .batchRemove 3 [], .submitTransaction (transactionOf 10 1 5) false true]

/-- A nonce that is used twice equals the hash of a transaction, which is dropped for it.  Its
block then comes with the constant that `asyncNotify` sets in the place of the nonce. -/
def undeliveredRun : List Input :=
  [.submitTransaction (transactionOf 10 1 3) false true,
    .submitTransaction (transactionOf 30 10 2) false true,
    .submitTransaction (transactionOf 40 10 2) true false, blockOf 1 (transactionOf 30 10 2),
    .batchFetchTxs [40] [] true 5, .removeInvalidTxs,
    .batchRemove 2 [⟨(transactionOf 10 1 3).toTransaction, 123⟩],
    .submitTransaction (transactionOf 10 1 3) true false]

end TxPool

end Loki.Fisco
