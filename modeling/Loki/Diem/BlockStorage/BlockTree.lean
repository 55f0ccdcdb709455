import Mathlib.Data.Finset.Lattice.Fold
import Mathlib.Data.List.Range
import Mathlib.Order.Lattice.Nat
import Loki.Diem.ConsensusTypes
import Loki.Foundation.Forest

/-!
# The block tree

`consensus/src/block_storage/block_tree.rs`.  The tree keeps the blocks that are not committed
yet, with links from parents to children, and the last committed blocks in a queue of bounded
length.  It has two roots, one for what is ordered and one for what is committed.

An `expect` or `assert` that fires is a panic, kept apart from the errors that the methods return.
Maps are looked up only, so that their order does not matter.  The children of a block are walked
in the order of a hash set, which is a parameter.
-/

namespace Loki.Diem

open Loki.Foundation

abbrev TransactionStatus := Nat

structure StateComputeResult where
  rootHash : HashValue
  frozenSubtreeRoots : List HashValue
  parentFrozenSubtreeRoots : List HashValue
  numLeaves : Nat
  parentNumLeaves : Nat
  epochState : Option EpochState
  computeStatus : List TransactionStatus
  transactionInfoHashes : List HashValue
  signature : Option Signature
  reconfigEvents : List ContractEvent
  deriving DecidableEq, Inhabited

def StateComputeResult.version (result : StateComputeResult) : Nat := max result.numLeaves 1 - 1

structure ExecutedBlock where
  block : Block
  stateComputeResult : StateComputeResult
  deriving DecidableEq

structure HashSetOrder where
  toList : Finset HashValue → List HashValue
  nodup : ∀ set, (toList set).Nodup
  mem_iff : ∀ {set id}, id ∈ toList set ↔ id ∈ set

def HashSetOrder.sorted : HashSetOrder where
  toList set := (List.range (set.sup id + 1)).filter (· ∈ set)
  nodup _ := List.nodup_range.filter _
  mem_iff := by
    intro set hash
    simp only [List.mem_filter, List.mem_range, decide_eq_true_eq, and_iff_right_iff_imp]
    exact fun hmem => Nat.lt_succ_of_le (Finset.le_sup (f := id) hmem)

variable (C : Crypto)

namespace ExecutedBlock

def id (executed : ExecutedBlock) : HashValue := executed.block.id C

variable (executed : ExecutedBlock)

def parentId : HashValue := executed.block.quorumCert.certifiedBlock.id

def round : Nat := executed.block.round

def computeResult : StateComputeResult := executed.stateComputeResult

def blockInfo : BlockInfo :=
  executed.block.genBlockInfo C executed.computeResult.rootHash executed.computeResult.version
    executed.computeResult.epochState

end ExecutedBlock

structure LinkableBlock where
  executedBlock : ExecutedBlock
  children : Finset HashValue
  deriving DecidableEq

namespace LinkableBlock

def new (block : ExecutedBlock) : LinkableBlock where
  executedBlock := block
  children := ∅

def id (block : LinkableBlock) : HashValue := block.executedBlock.id C

def addChild (block : LinkableBlock) (childId : HashValue) : Outcome LinkableBlock := do
  ensure (childId ∉ block.children) (.panic s!"Block {childId} already existed.")
  return { block with children := insert childId block.children }

end LinkableBlock

structure BlockTree where
  idToBlock : BTreeMap HashValue LinkableBlock
  rootId : HashValue
  commitRootId : HashValue
  highestCertifiedBlockId : HashValue
  highestQuorumCert : QuorumCert
  highestTimeoutCert : Option TimeoutCertificate
  highestCommitCert : QuorumCert
  idToQuorumCert : BTreeMap HashValue QuorumCert
  prunedBlockIds : List HashValue
  maxPrunedBlocksInMem : Nat
  deriving DecidableEq

namespace BlockTree

def new (root : ExecutedBlock) (rootQuorumCert rootLedgerInfo : QuorumCert)
    (maxPrunedBlocksInMem : Nat) (highestTimeoutCert : Option TimeoutCertificate) :
    Outcome BlockTree := do
  ensure (root.id C = rootLedgerInfo.commitInfo.id) (.panic "inconsistent root and ledger info")
  return {
    idToBlock := (∅ : BTreeMap HashValue LinkableBlock).insert (root.id C) (.new root)
    rootId := root.id C
    commitRootId := root.id C
    highestCertifiedBlockId := root.id C
    highestQuorumCert := rootQuorumCert
    highestTimeoutCert := highestTimeoutCert
    highestCommitCert := rootLedgerInfo
    idToQuorumCert := (∅ : BTreeMap HashValue QuorumCert).insert rootQuorumCert.certifiedBlock.id
      rootQuorumCert
    prunedBlockIds := []
    maxPrunedBlocksInMem := maxPrunedBlocksInMem }

variable (t : BlockTree) (blockId : HashValue)

def getLinkableBlock : Option LinkableBlock := t.idToBlock[blockId]?

def linkableRoot : Outcome LinkableBlock :=
  okOr (t.getLinkableBlock t.commitRootId) (.panic "Root must exist")

def removeBlock : BlockTree :=
  { t with
    idToBlock := t.idToBlock.erase blockId
    idToQuorumCert := t.idToQuorumCert.erase blockId }

def getBlock : Option ExecutedBlock := (t.getLinkableBlock blockId).map LinkableBlock.executedBlock

def root : Outcome ExecutedBlock := okOr (t.getBlock t.rootId) (.panic "Root must exist")

def highestCertifiedBlock : Outcome ExecutedBlock :=
  okOr (t.getBlock t.highestCertifiedBlockId) (.panic "Highest cerfified block must exist")

def insertBlock (block : ExecutedBlock) : Outcome (ExecutedBlock × BlockTree) :=
  match t.getBlock (block.id C) with
  | some existing => do
    ensure (existing.computeResult = block.computeResult)
      (.panic "existing_block.compute_result() == block.compute_result()")
    return (existing, t)
  | none => do
    let parentId := block.parentId
    let parent ← okOr (t.getLinkableBlock parentId)
      (.error s!"Parent block {parentId} not found")
    let parent ← parent.addChild (block.id C)
    let idToBlock := t.idToBlock.insert parentId parent
    ensure (block.id C ∉ idToBlock)
      (.panic "self.id_to_block.insert(block_id, linkable_block).is_none()")
    return (block, { t with idToBlock := idToBlock.insert (block.id C) (.new block) })

/-- The `precondition!` of the source is not compiled in. -/
def insertQuorumCert (qc : QuorumCert) : Outcome BlockTree := do
  let blockId := qc.certifiedBlock.id
  let block ← okOr (t.getBlock blockId) (.error s!"Block {blockId} not found")
  let highest ← t.highestCertifiedBlock
  let t := if highest.round < block.round then
      { t with highestCertifiedBlockId := block.id C, highestQuorumCert := qc }
    else t
  let t := { t with idToQuorumCert := t.idToQuorumCert.insertIfNew blockId qc }
  return if t.highestCommitCert.commitInfo.round < qc.commitInfo.round then
      { t with highestCommitCert := qc }
    else t

/-- The children that the loop of `find_blocks_to_prune` pushes for one block. -/
def childrenToPrune (t : BlockTree) (nextRootId : HashValue) :
    List HashValue → Outcome (List LinkableBlock)
  | [] => return []
  | childId :: rest =>
    if nextRootId = childId then t.childrenToPrune nextRootId rest
    else do
      let child ← okOr (t.getLinkableBlock childId) (.panic "Child must exist in the tree")
      let others ← t.childrenToPrune nextRootId rest
      return child :: others

/-- `find_blocks_to_prune`.  In a tree the loop pops a block once at most; a loop that goes on
after that many steps is taken for one that does not end. -/
def findBlocksToPrune (order : HashSetOrder) (t : BlockTree) (nextRootId : HashValue) :
    Outcome (List HashValue) :=
  if nextRootId = t.commitRootId then return []
  else do
    let root ← t.linkableRoot
    let pruned ← traverse (fun block => t.childrenToPrune nextRootId (order.toList block.children))
      (.panic "the loop does not end") t.idToBlock.size [root] []
    return pruned.map (LinkableBlock.id C)

def updateRootId (rootId : HashValue) : Outcome BlockTree := do
  ensure (rootId ∈ t.idToBlock) (.panic "self.block_exists(&root_id)")
  return { t with rootId := rootId }

def updateCommitIdAndProcessPrunedBlocks (nextRootId : HashValue)
    (newlyPrunedBlocks : List HashValue) : BlockTree :=
  let pruned := t.prunedBlockIds ++ newlyPrunedBlocks
  let numBlocksToRemove := pruned.length - t.maxPrunedBlocksInMem
  -- the oldest ones are in the front of the queue
  (pruned.take numBlocksToRemove).foldl removeBlock { t with
    commitRootId := nextRootId
    prunedBlockIds := pruned.drop numBlocksToRemove }

/-- The loop of `path_from_root`, from a block towards the root.  `path` is in the order of the
rounds, where the source reverses it at the end. -/
def pathLoop (t : BlockTree) (root : ExecutedBlock) : Nat → HashValue → List ExecutedBlock →
    Outcome (Option (HashValue × List ExecutedBlock))
  | 0, _, _ => .error (.panic "the loop does not end")
  | fuel + 1, curBlockId, path =>
    match t.getBlock curBlockId with
    | none => return none
    | some block =>
      if block.round ≤ root.round then return some (curBlockId, path)
      else t.pathLoop root fuel block.parentId (block :: path)

/-- `path_from_root`.  A walk along parent links that ends does not come to a block twice. -/
def pathFromRoot : Outcome (Option (List ExecutedBlock)) := do
  match t.getBlock blockId with
  | none => return none
  | some _ =>
    let root ← t.root
    match ← t.pathLoop root (t.idToBlock.size + 1) blockId [] with
    | none => return none
    | some (curBlockId, path) => return if curBlockId = t.rootId then some path else none

def replaceTimeoutCert (tc : TimeoutCertificate) : BlockTree :=
  { t with highestTimeoutCert := some tc }

end BlockTree

end Loki.Diem
