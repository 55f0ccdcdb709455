import Loki.Fisco.Cache

/-!
# The caches of a node and its queues

The state of a PBFT node, and the methods of `PBFTCacheProcessor` on it.  Calls on other modules
that answer later are kept in lists: proposals given to the validator, to the state machine and to
the storage, and requests to peers.  `stored` and `sent` list everything given to the storage and
to the front service.
-/

namespace Loki.Fisco

structure PBFTEngine where
  config : PBFTConfig
  caches : OrderedMap Nat PBFTCache := ∅
  /-- View changes by view and sender. -/
  viewChangeCache : OrderedMap Nat (OrderedMap Nat ViewChangeMsg) := ∅
  viewChangeWeight : OrderedMap Nat Nat := ∅
  maxCommittedIndex : OrderedMap Nat Nat := ∅
  maxPrecommitIndex : OrderedMap Nat Nat := ∅
  newViewGenerated : Bool := false
  committedQueue : List PBFTProposal := []
  executingProposals : OrderedMap HashType Nat := ∅
  committedProposalList : List Nat := []
  stableCheckPointQueue : List PBFTProposal := []
  recoverReqCache : OrderedMap Nat (OrderedMap Nat PBFTMessage) := ∅
  recoverCacheWeight : OrderedMap Nat Nat := ∅
  /-- Pre-prepares in `verifyProposal`, and whether they come from a new view. -/
  verifying : List (PBFTMessage × Bool) := []
  /-- Pre-prepares whose data has been requested from a peer. -/
  requesting : List PBFTMessage := []
  /-- Indices of the committed proposals that have been requested from a peer. -/
  fetching : List Nat := []
  /-- Fetched proposals in `verifyProposal`. -/
  loading : List PBFTProposal := []
  /-- Proposals in the state machine, after the proposal they extend. -/
  applying : List (PBFTProposal × PBFTProposal) := []
  /-- Finished executions on the engine's worker: the proposal and its result. -/
  finished : List (PBFTProposal × Option PBFTProposal) := []
  /-- Stable checkpoints that the storage has not committed yet. -/
  committing : List PBFTProposal := []
  /-- Every stable checkpoint given to the storage. -/
  stored : List PBFTProposal := []
  sent : List Message := []

namespace PBFTEngine

variable (s : PBFTEngine) (msg : PBFTMessage) (index : Nat) (cache : PBFTCache)

def send (msg : Message) : PBFTEngine := { s with sent := msg :: s.sent }

def setConfig (config : PBFTConfig) : PBFTEngine := { s with config := config }

def setCache : PBFTEngine := { s with caches := s.caches.insert index cache }

/-- `PBFTCacheProcessor::addCache`: the cache of an index is made on its first use. -/
def addCache (handler : PBFTCache → PBFTCache) : PBFTEngine :=
  s.setCache index (handler (s.caches[index]?.getD { index := index }))

def existPrePrepare : Bool :=
  s.caches[msg.index]?.any (·.existPrePrepare msg)

def conflictWithProcessedReq : Bool :=
  s.caches[msg.index]?.any (·.conflictWithProcessedReq s.config msg)

def conflictWithPrecommitReq : Bool :=
  s.caches[msg.index]?.any (·.conflictWithPrecommitReq s.config msg)

def addPrePrepareCache : PBFTEngine :=
  s.addCache msg.index (·.addPrePrepareCache msg)

def addPrepareCache : PBFTEngine :=
  s.addCache msg.index (·.addPrepareCache s.config msg)

def addCommitReq : PBFTEngine := s.addCache msg.index (·.addCommitCache s.config msg)

def addCheckPointMsg : PBFTEngine :=
  s.addCache msg.index (·.addCheckPointMsg s.config msg)

def setCheckPointProposal (proposal : PBFTProposal) : PBFTEngine :=
  s.addCache proposal.index (·.setCheckPointProposal s.config proposal)

/-- `some` is the pre-prepare with the data of the precommit it agrees with. -/
def tryToFillProposal : Option PBFTMessage := do
  let precommit ← s.caches[msg.index]?.bind (·.precommit)
  if precommit.hash = msg.hash ∧ precommit.index = msg.index then
    some { msg with consensusProposal := msg.consensusProposal.map fun proposal =>
      { proposal with data := precommit.consensusProposal.bind (·.data) } }
  else none

/-- The proposal of least index, which `std::priority_queue` has on top. -/
def top : List PBFTProposal → Option PBFTProposal
  | [] => none
  | proposal :: queue =>
    match top queue with
    | none => some proposal
    | some least => if least.index < proposal.index then some least else some proposal

def pop (queue : List PBFTProposal) : List PBFTProposal :=
  match top queue with
  | none => []
  | some least => queue.erase least

def getAppliedCheckPointProposal : Option PBFTProposal :=
  if index = s.config.committedProposal.index then some s.config.committedProposal
  else s.caches[index]?.bind (·.checkpointProposal)

/-- `setWaitSealUntil` for a system proposal, the only part of `notifyToSealNextBlock` that the
engine reads. -/
def notifyToSealNextBlock (proposal : PBFTProposal) : PBFTEngine :=
  if proposal.systemProposal then
    s.setConfig { s.config with waitSealUntil := max s.config.waitSealUntil proposal.index }
  else s

def applyStateMachine (lastApplied proposal : PBFTProposal) : PBFTEngine :=
  let s := s.notifyToSealNextBlock proposal
  { s with applying := s.applying ++ [(lastApplied, proposal)] }

/-- The first loop of `tryToApplyCommitQueue`. -/
def dropApplied (expectedCheckPoint : Nat) (queue : List PBFTProposal) : List PBFTProposal :=
  queue.filter fun proposal => expectedCheckPoint ≤ proposal.index

def tryToApplyCommitQueue : PBFTEngine × Bool :=
  let s := { s with committedQueue := dropApplied s.config.expectedCheckPoint s.committedQueue }
  match top s.committedQueue with
  | none => (s, false)
  | some proposal =>
    if proposal.index ≠ s.config.expectedCheckPoint then (s, false)
    else
      match s.getAppliedCheckPointProposal (s.config.expectedCheckPoint - 1) with
      | none => (s, false)
      | some lastApplied =>
        if proposal.hash ∈ s.executingProposals then (s, false)
        else
          let s := { s with
            committedQueue := pop s.committedQueue
            executingProposals := s.executingProposals.insert proposal.hash proposal.index }
          (s.applyStateMachine lastApplied proposal, true)

def updateCommitQueue (proposal : PBFTProposal) : PBFTEngine :=
  if proposal.hash ∈ s.executingProposals then s
  else
    ({ s with
      committedQueue := s.committedQueue ++ [proposal]
      committedProposalList := s.committedProposalList.insert proposal.index }
      |>.tryToApplyCommitQueue).1

def eraseExecutedProposal (hash : HashType) : PBFTEngine :=
  { s with executingProposals := s.executingProposals.erase hash }

def clearExpiredExecutingProposal : PBFTEngine :=
  { s with executingProposals := s.executingProposals.filter fun _ index =>
      s.config.committedProposal.index < index }

/-- The queue's part in the loops of `checkAndPreCommit` and `checkAndCommit`. -/
def commitAt : PBFTEngine :=
  match cache.precommit.bind (·.consensusProposal) with
  | none => s
  | some proposal => s.updateCommitQueue proposal

def submitAt : PBFTEngine × Bool :=
  let (cache, submitted) := cache.checkAndCommit s.config
  let s := s.setCache index cache
  (if submitted then s.commitAt cache else s, submitted)

def preCommitted (s : PBFTEngine) (index : Nat) (cache : PBFTCache) (prePrepare : PBFTMessage) :
    PBFTEngine :=
  match PBFTCache.commitReq s.config (cache.precommitOf s.config prePrepare) with
  | none => s.setCache index (cache.preCommitted s.config prePrepare)
  | some msg => (s.send (.pbft msg)).setCache index (cache.preCommitted s.config prePrepare)

/-- One cache in the loop of `checkAndPreCommit`. -/
def preCommitAt : PBFTEngine :=
  match s.caches[index]? with
  | none => s
  | some cache =>
    match cache.readyToPreCommit s.config with
    | none => s
    | some prePrepare =>
      ((s.preCommitted index cache prePrepare).submitAt index
        (cache.preCommitted s.config prePrepare)).1

def checkAndPreCommit : PBFTEngine := s.caches.keys.foldl preCommitAt s

/-- One cache in the loop of `checkAndCommit`. -/
def commitCacheAt : PBFTEngine :=
  match s.caches[index]? with
  | none => s
  | some cache =>
    let (s, submitted) := s.submitAt index cache
    if submitted then s.setConfig s.config.resetToView else s

/-- `checkAndCommit` up to the call of `resetTimer`. -/
def checkAndCommitCaches : PBFTEngine := s.caches.keys.foldl commitCacheAt s

def tryToCommitStableCheckPoint : PBFTEngine :=
  let committed := s.config.committedProposal.index
  let expired := s.stableCheckPointQueue.filter fun proposal => proposal.index ≤ committed
  let s := { s with
    committedProposalList := s.committedProposalList.filter fun index =>
      !expired.any (·.index == index)
    stableCheckPointQueue := s.stableCheckPointQueue.filter fun proposal =>
      committed < proposal.index }
  match top s.stableCheckPointQueue with
  | none => s
  | some stable =>
    if stable.index = committed + 1 then
      { s with
        committedProposalList := s.committedProposalList.filter (· != stable.index)
        stableCheckPointQueue := pop s.stableCheckPointQueue
        committing := s.committing ++ [stable]
        stored := stable :: s.stored }
    else s

def updateStableCheckPointQueue (stable : PBFTProposal) : PBFTEngine :=
  { s with
    stableCheckPointQueue := s.stableCheckPointQueue ++ [stable] }.tryToCommitStableCheckPoint

/-- One cache in the loop of `checkAndCommitStableCheckPoint`, with the stable checkpoints found. -/
def stableAt (found : PBFTEngine × List PBFTProposal) (index : Nat) :
    PBFTEngine × List PBFTProposal :=
  match found.1.caches[index]? with
  | none => found
  | some cache =>
    let (cache, stable) := cache.checkAndCommitStableCheckPoint found.1.config
    (found.1.setCache index cache,
      if stable then found.2 ++ cache.checkpointProposal.toList else found.2)

def checkAndCommitStableCheckPoint : PBFTEngine :=
  let (s, stable) := s.caches.keys.foldl stableAt (s, [])
  stable.foldl updateStableCheckPointQueue s

/-- `true` asks for the committed proposal of the checkpoint's index. -/
def shouldRequestCheckPoint : PBFTEngine × Bool :=
  if msg.index ≤ s.config.committedProposal.index ∨ msg.index ≤ s.config.syncingHighestNumber then
    (s, false)
  else if msg.index ∈ s.committedProposalList then (s, false)
  else if (s.caches[msg.index]?.bind (·.checkpointProposal)).isSome then (s, false)
  else if s.config.timeoutState then (s, true)
  else
    match s.caches[msg.index]? with
    | none => (s, false)
    | some cache =>
      if cache.precommitted then (s, false)
      else if cache.getCollectedCheckPointWeight msg.hash < s.config.maxFaultyQuorum + 1 then
        (s, false)
      else
        ({ s with committedProposalList := s.committedProposalList.insert msg.index }, true)

end PBFTEngine

end Loki.Fisco
