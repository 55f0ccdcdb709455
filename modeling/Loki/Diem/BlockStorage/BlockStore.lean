import Loki.Diem.BlockStorage.TreeInvariant

/-!
# The block store

`consensus/src/block_storage/block_store.rs`.  The store executes blocks, writes blocks and
certificates to storage, keeps them in the block tree and hands what is committed to the state
computer.

The state computer runs the callback of a commit when the blocks are persisted, before `commit`
returns or later; the callbacks run in the order of the commits.  What the executor and the
storage answer is an argument of the methods.  Counters and the clock are left out.
-/

namespace Loki.Diem

open Loki.Foundation

/-- `executor_types::Error`. -/
inductive ExecutorError where
  | blockNotFound (id : HashValue)
  | internalError (error : String)
  | serializationError (error : String)

def ExecutorError.message : ExecutorError → String
  | .blockNotFound id => s!"Cannot find speculation result for block id {id}"
  | .internalError error => s!"Internal error: {repr error}"
  | .serializationError error => s!"Serialization error: {error}"

/-- What `compute` answers for a block and the id of its parent, by the number of the calls that
the method has made before. -/
abbrev StateComputer := Nat → Block → HashValue → Except ExecutorError StateComputeResult

namespace StateComputer

def executeBlock (computer : StateComputer) (call : Nat) (block : Block) :
    Except ExecutorError ExecutedBlock := do
  let stateComputeResult ← computer call block block.parentId
  return ⟨block, stateComputeResult⟩

def reexecute (computer : StateComputer) : Nat → List ExecutedBlock → Except ExecutorError Nat
  | call, [] => return call
  | call, executed :: rest => do
    let _ ← computer.executeBlock call executed.block
    computer.reexecute (call + 1) rest

end StateComputer

structure BlockStore where
  inner : BlockTree
  /-- The commits whose callback has not run yet, the oldest first. -/
  pendingCommits : List (List ExecutedBlock)
  deriving DecidableEq

namespace BlockStore

variable (C : Crypto)

variable (s : BlockStore)

/-- Execution of a new block.  When the executor does not know the parent, the path to it is
executed first. -/
def execute (computer : StateComputer) (block : Block) : Outcome ExecutedBlock :=
  match computer.executeBlock 0 block with
  | .ok executed => return executed
  | .error (.blockNotFound parentId) => do
    let blocksToReexecute ← s.inner.pathFromRoot parentId
    mapErr (fun e => Fault.error e.message) do
      let call ← computer.reexecute 1 (blocksToReexecute.getD [])
      computer.executeBlock call block
  | .error e => .error (.error e.message)

def executeAndInsertBlock (computer : StateComputer) (saved : Bool)
    (block : Block) : Outcome (ExecutedBlock × BlockStore) :=
  match s.inner.getBlock (block.id C) with
  | some existing => return (existing, s)
  | none => do
    let root ← s.inner.root
    ensure (root.round < block.round) (.error "Block with old round")
    let executed ← s.execute computer block
    ensure (saved = true) (.error "Insert block failed when saving block")
    let (stored, inner) ← s.inner.insertBlock C executed
    return (stored, { s with inner := inner })

def insertSingleQuorumCert (saved : Bool) (qc : QuorumCert) : Outcome BlockStore := do
  let executed ← okOr (s.inner.getBlock qc.certifiedBlock.id)
    (.error s!"Insert {qc.certifiedBlock.id} without having the block in store first")
  ensure (executed.blockInfo C = qc.certifiedBlock)
    (.error s!"QC for block {qc.certifiedBlock.id} has different info than local")
  ensure (saved = true) (.error "Insert block failed when saving quorum")
  let inner ← s.inner.insertQuorumCert C qc
  return { s with inner := inner }

def insertTimeoutCertificate (saved : Bool) (tc : TimeoutCertificate) : Outcome BlockStore :=
  let curTcRound := (s.inner.highestTimeoutCert.map fun tc => tc.timeout.round).getD 0
  if tc.timeout.round ≤ curTcRound then return s
  else do
    ensure (saved = true) (.error "Timeout certificate insert failed when persisting to DB")
    return { s with inner := s.inner.replaceTimeoutCert tc }

/-- `commit`, up to the callback. -/
def commit (s : BlockStore) (persisted : Bool) (finalityProof : LedgerInfoWithSignatures) :
    Outcome BlockStore := do
  let blockIdToCommit := finalityProof.ledgerInfo.commitInfo.id
  let blockToCommit ← okOr (s.inner.getBlock blockIdToCommit)
    (.error "Committed block id not found")
  let root ← s.inner.root
  ensure (root.round < blockToCommit.round) (.error "Committed block round lower than root")
  let blocksToCommit ← s.inner.pathFromRoot blockIdToCommit
  let inner ← s.inner.updateRootId (blockToCommit.id C)
  ensure (persisted = true) (.panic "Failed to persist commit")
  return { inner := inner, pendingCommits := s.pendingCommits ++ [blocksToCommit.getD []] }

variable (order : HashSetOrder)

def updateCountersAndPruneBlocks (blockTree : BlockTree) (blocksToCommit : List ExecutedBlock) :
    Outcome BlockTree := do
  let blockToCommit ← okOr blocksToCommit.getLast?
    (.panic "called `Option::unwrap()` on a `None` value")
  let idToRemove ← blockTree.findBlocksToPrune C order (blockToCommit.id C)
  return blockTree.updateCommitIdAndProcessPrunedBlocks (blockToCommit.id C) idToRemove

def runCallback (s : BlockStore) : Outcome BlockStore :=
  match s.pendingCommits with
  | [] => return s
  | blocksToCommit :: rest => do
    let inner ← updateCountersAndPruneBlocks C order s.inner blocksToCommit
    return { inner := inner, pendingCommits := rest }

def pruneTree (s : BlockStore) (nextRootId : HashValue) :
    Outcome (List HashValue × BlockStore) := do
  let idToRemove ← s.inner.findBlocksToPrune C order nextRootId
  let inner ← s.inner.updateRootId nextRootId
  return (idToRemove, { s with
    inner := inner.updateCommitIdAndProcessPrunedBlocks nextRootId idToRemove })

end BlockStore

/-! ## What the methods do to the tree -/

namespace BlockStore

variable {C : Crypto} {order : HashSetOrder} {s s' : BlockStore}

theorem execute_block {computer block executed}
    (h : s.execute computer block = .ok executed) : executed.block = block := by
  have hblock : ∀ {call : Nat}, computer.executeBlock call block = .ok executed →
      executed.block = block := by
    intro _ hcall
    simp only [StateComputer.executeBlock, bind_eq_ok, pure_eq_ok] at hcall
    obtain ⟨_, -, rfl⟩ := hcall
    rfl
  unfold execute at h
  split at h
  · next hcall =>
      rw [pure_eq_ok] at h
      exact hblock (h ▸ hcall)
  · simp only [bind_eq_ok, mapErr_eq_ok] at h
    obtain ⟨_, -, _, -, hcall⟩ := h
    exact hblock hcall
  · cases h

theorem executeAndInsertBlock_spec {computer saved block stored}
    (h : s.executeAndInsertBlock C computer saved block = .ok (stored, s')) :
    s' = s ∨ ∃ executed inner, executed.block = block ∧
      s.inner.insertBlock C executed = .ok (stored, inner) ∧ s' = { s with inner := inner } := by
  unfold executeAndInsertBlock at h
  split at h
  · simp only [pure_eq_ok, Prod.mk.injEq] at h
    exact .inl h.2.symm
  · simp only [bind_eq_ok, pure_eq_ok, Prod.mk.injEq, Prod.exists] at h
    obtain ⟨_, -, _, -, executed, hexecuted, _, -, _, inner, hinsert, rfl, rfl⟩ := h
    exact .inr ⟨executed, inner, execute_block hexecuted, hinsert, rfl⟩

theorem insertSingleQuorumCert_spec {saved qc} (h : s.insertSingleQuorumCert C saved qc = .ok s') :
    ∃ block inner, s.inner.getBlock qc.certifiedBlock.id = some block ∧
      block.blockInfo C = qc.certifiedBlock ∧ s.inner.insertQuorumCert C qc = .ok inner ∧
      s' = { s with inner := inner } := by
  simp only [insertSingleQuorumCert, bind_eq_ok, okOr_eq_ok, ensure_eq_ok, pure_eq_ok] at h
  obtain ⟨block, hblock, _, hinfo, _, -, inner, hinsert, rfl⟩ := h
  exact ⟨block, inner, hblock, hinfo, hinsert, rfl⟩

theorem insertTimeoutCertificate_spec {saved tc}
    (h : s.insertTimeoutCertificate saved tc = .ok s') :
    s' = s ∨ s' = { s with inner := s.inner.replaceTimeoutCert tc } := by
  unfold insertTimeoutCertificate at h
  simp only at h
  split at h
  · rw [pure_eq_ok] at h
    exact .inl h.symm
  · simp only [bind_eq_ok, pure_eq_ok] at h
    obtain ⟨_, -, rfl⟩ := h
    exact .inr rfl

theorem commit_spec {persisted proof} (h : s.commit C persisted proof = .ok s') :
    ∃ block root path inner, s.inner.getBlock proof.ledgerInfo.commitInfo.id = some block ∧
      s.inner.getBlock s.inner.rootId = some root ∧ root.round < block.round ∧
      s.inner.pathFromRoot proof.ledgerInfo.commitInfo.id = .ok path ∧
      s.inner.updateRootId (block.id C) = .ok inner ∧
      s' = { inner := inner, pendingCommits := s.pendingCommits ++ [path.getD []] } := by
  simp only [commit, BlockTree.root, bind_eq_ok, okOr_eq_ok, ensure_eq_ok, pure_eq_ok] at h
  obtain ⟨block, hblock, root, hroot, _, hround, path, hpath, inner, hinner, _, -, rfl⟩ := h
  exact ⟨block, root, path, inner, hblock, hroot, hround, hpath, hinner, rfl⟩

theorem runCallback_spec (h : s.runCallback C order = .ok s') :
    s' = s ∨ ∃ path rest block ids, s.pendingCommits = path :: rest ∧
      path.getLast? = some block ∧
      s.inner.findBlocksToPrune C order (block.id C) = .ok ids ∧
      s' = {
        inner := s.inner.updateCommitIdAndProcessPrunedBlocks (block.id C) ids
        pendingCommits := rest } := by
  unfold runCallback at h
  split at h
  · rw [pure_eq_ok] at h
    exact .inl h.symm
  · next path rest hpending =>
      simp only [updateCountersAndPruneBlocks, bind_eq_ok, okOr_eq_ok, pure_eq_ok] at h
      obtain ⟨_, ⟨block, hlast, ids, hids, rfl⟩, rfl⟩ := h
      exact .inr ⟨path, rest, block, ids, hpending, hlast, hids, rfl⟩

theorem pruneTree_spec {nextRootId ids} (h : s.pruneTree C order nextRootId = .ok (ids, s')) :
    s.inner.findBlocksToPrune C order nextRootId = .ok ids ∧
      s' = { s with inner := ({ s.inner with
        rootId := nextRootId }).updateCommitIdAndProcessPrunedBlocks nextRootId ids } := by
  simp only [pruneTree, bind_eq_ok, pure_eq_ok, Prod.mk.injEq] at h
  obtain ⟨_, hids, _, hinner, rfl, rfl⟩ := h
  obtain ⟨-, rfl⟩ := BlockTree.updateRootId_spec hinner
  exact ⟨hids, rfl⟩

end BlockStore

end Loki.Diem
