import Mathlib.Data.List.Sort
import Loki.Fisco.Config

/-!
# The cache of one index

`PBFTCache` collects the votes for one block number: its pre-prepare, the proposal it has
precommitted, and prepare, commit and checkpoint messages with the weight recorded for each hash.
-/

namespace Loki.Fisco

/-- A `CollectionCacheType` with its `QuorumRecoderType`: a message is found by its hash and its
sender, and stands in the order of the senders. -/
structure VoteCache where
  cachedReq : List PBFTMessage := []
  weightInfo : OrderedMap HashType Nat := ∅

namespace VoteCache

variable (config : PBFTConfig) (votes : VoteCache) (hash : HashType)

def cached (generatedFrom : Nat) : Bool :=
  votes.cachedReq.any fun req => req.hash == hash && req.generatedFrom == generatedFrom

def addCache (index : Nat) (votes : VoteCache) (msg : PBFTMessage) : VoteCache :=
  if msg.index ≠ index then votes
  else if votes.cached msg.hash msg.generatedFrom then votes
  else
    match config.getConsensusNodeByIndex msg.generatedFrom with
    | none => votes
    | some nodeInfo =>
      { cachedReq := votes.cachedReq.orderedInsert (·.generatedFrom ≤ ·.generatedFrom) msg
        weightInfo := votes.weightInfo.insert msg.hash
          ((votes.weightInfo[msg.hash]?.getD 0 + nodeInfo.weight) % uint64) }

def collectEnoughQuorum : Bool :=
  match votes.weightInfo[hash]? with
  | none => false
  | some weight => config.minRequiredQuorum ≤ weight

/-- One message in the loop of `recalculateQuorum`. -/
def recount (quorum : OrderedMap HashType Nat) (msg : PBFTMessage) : OrderedMap HashType Nat :=
  quorum.insert msg.hash
    (match config.getConsensusNodeByIndex msg.generatedFrom with
    | none => quorum[msg.hash]?.getD 0
    | some nodeInfo => (quorum[msg.hash]?.getD 0 + nodeInfo.weight) % uint64)

def recalculateQuorum (cachedReq : List PBFTMessage) : OrderedMap HashType Nat :=
  cachedReq.foldl (recount config) ∅

/-- `resetCacheAfterViewChange` followed by `recalculateQuorum`. -/
def resetCacheAfterViewChange (curView : Nat) : VoteCache :=
  let cachedReq := votes.cachedReq.filter fun req => curView ≤ req.view
  { cachedReq := cachedReq, weightInfo := recalculateQuorum config cachedReq }

/-- The proofs that `setSignatureList` puts into a proposal. -/
def signatureList : List (Nat × Signature) :=
  votes.cachedReq.filterMap fun req =>
    if req.hash = hash then
      some (req.generatedFrom, (req.consensusProposal.bind (·.signature)).getD 0)
    else none

end VoteCache

structure PBFTCache where
  index : Nat
  submitted : Bool := false
  stableCommitted : Bool := false
  precommitted : Bool := false
  prepareCacheList : VoteCache := {}
  commitCacheList : VoteCache := {}
  prePrepare : Option PBFTMessage := none
  precommit : Option PBFTMessage := none
  checkpointProposal : Option PBFTProposal := none
  checkpointCacheList : VoteCache := {}

namespace PBFTCache

variable (config : PBFTConfig)

variable (cache : PBFTCache) (prePrepare : PBFTMessage) (msg : PBFTMessage)
  (prePrepareMsg : PBFTMessage)

def existPrePrepare : Bool :=
  match cache.prePrepare with
  | none => false
  | some prePrepare => prePrepareMsg.hash == prePrepare.hash && prePrepareMsg.view ≤ prePrepare.view

def conflictWithProcessedReq : Bool :=
  if cache.submitted || cache.stableCommitted then true
  else if msg.view < config.view then true
  else
    match cache.prePrepare with
    | none => false
    | some prePrepare =>
      if msg.view < prePrepare.view then true
      else if msg.view = prePrepare.view then msg.hash != prePrepare.hash
      else false

def conflictWithPrecommitReq : Bool :=
  match cache.precommit with
  | none => false
  | some precommit =>
    if precommit.index < config.progressedIndex then false
    else prePrepareMsg.index == precommit.index && prePrepareMsg.hash != precommit.hash

def addPrePrepareCache : PBFTCache :=
  if cache.stableCommitted then cache
  else if cache.checkpointProposal.isSome && cache.prePrepare.any fun prePrepare =>
      prePrepareMsg.consensusProposal.map (·.hash) != prePrepare.consensusProposal.map (·.hash) then
    cache
  else { cache with prePrepare := some prePrepareMsg }

def addPrepareCache : PBFTCache :=
  { cache with prepareCacheList := cache.prepareCacheList.addCache config cache.index msg }

def addCommitCache : PBFTCache :=
  { cache with commitCacheList := cache.commitCacheList.addCache config cache.index msg }

def addCheckPointMsg : PBFTCache :=
  { cache with checkpointCacheList := cache.checkpointCacheList.addCache config cache.index msg }

/-- `checkPrePrepareProposalStatus` and `collectEnoughQuorum` for the hash of the pre-prepare. -/
def collectEnough (votes : VoteCache) : Bool :=
  match cache.prePrepare with
  | none => false
  | some prePrepare =>
    prePrepare.view == config.view && votes.collectEnoughQuorum config prePrepare.hash

def collectEnoughPrepareReq : Bool := cache.collectEnough config cache.prepareCacheList

def collectEnoughCommitReq : Bool := cache.collectEnough config cache.commitCacheList

/-- The precommit that a pre-prepare becomes: it is in the node's name, and has the prepare
signatures as its proof. -/
def precommitOf : PBFTMessage :=
  { prePrepare with
    generatedFrom := config.nodeIndex
    consensusProposal := prePrepare.consensusProposal.map fun proposal =>
      { proposal with signatureProof := cache.prepareCacheList.signatureList proposal.hash } }

/-- `m_precommit` and `m_prePrepare` point to one object from now on. -/
def intoPrecommit : PBFTCache :=
  { cache with
    prePrepare := some (cache.precommitOf config prePrepare)
    precommit := some (cache.precommitOf config prePrepare) }

/-- `preCommitWithoutData`: the precommit with the proposal's data left out. -/
def preCommitWithoutData : Option PBFTMessage :=
  cache.precommit.map fun precommit =>
    { precommit with consensusProposal := precommit.consensusProposal.map (·.withoutData) }

def checkAndCommit : PBFTCache × Bool :=
  if cache.submitted then (cache, false)
  else
    match cache.precommit with
    | none => (cache, false)
    | some precommit =>
      if precommit.view ≠ config.view then (cache, false)
      else if !cache.collectEnoughCommitReq config then (cache, false)
      else ({ cache with submitted := true }, true)

def commitReq (precommit : PBFTMessage) : Option PBFTMessage :=
  precommit.consensusProposal.map fun proposal =>
    (PBFTMessage.populateVote config.cryptoSuite config.nodeID .commitPacket config.view
      config.nodeIndex proposal).encode config.cryptoSuite config.nodeID

/-- The guards of `checkAndPreCommit`, with the pre-prepare that passes them. -/
def readyToPreCommit : Option PBFTMessage :=
  if cache.precommitted then none
  else
    match cache.prePrepare with
    | none => none
    | some prePrepare =>
      if cache.precommit.any fun precommit => prePrepare.view ≤ precommit.view then none
      else if prePrepare.view ≠ config.view then none
      else if !cache.collectEnoughPrepareReq config then none
      else some prePrepare

/-- The cache once its pre-prepare is precommitted and its own commit message is counted. -/
def preCommitted : PBFTCache :=
  match commitReq config (cache.precommitOf config prePrepare) with
  | none => { cache.intoPrecommit config prePrepare with precommitted := true }
  | some msg =>
    { (cache.intoPrecommit config prePrepare).addCommitCache config msg with precommitted := true }

def shouldStopTimer : Bool := cache.index ≤ config.committedProposal.index || cache.submitted

def resetCache (curView : Nat) : PBFTCache :=
  { cache with
    submitted := false
    precommitted := false
    prepareCacheList := cache.prepareCacheList.resetCacheAfterViewChange config curView
    commitCacheList := cache.commitCacheList.resetCacheAfterViewChange config curView }

def setCheckPointProposal (proposal : PBFTProposal) : PBFTCache :=
  if proposal.index ≤ config.committedProposal.index then cache
  else if proposal.index ≠ cache.index then cache
  else { cache with checkpointProposal := some proposal }

def checkAndCommitStableCheckPoint : PBFTCache × Bool :=
  match cache.checkpointProposal with
  | none => (cache, false)
  | some proposal =>
    if cache.stableCommitted ||
        !cache.checkpointCacheList.collectEnoughQuorum config proposal.hash then
      (cache, false)
    else
      ({ cache with
          stableCommitted := true
          checkpointProposal := some { proposal with
            signatureProof := cache.checkpointCacheList.signatureList proposal.hash } },
        decide (config.committedProposal.index < proposal.index))

def getCollectedCheckPointWeight (hash : HashType) : Nat :=
  cache.checkpointCacheList.weightInfo[hash]?.getD 0

/-! ### What each method does to the lock -/

variable {config} {cache : PBFTCache} {msg prePrepare precommit : PBFTMessage}

theorem setCheckPointProposal_cases (config) (cache : PBFTCache) (proposal) :
    cache.setCheckPointProposal config proposal = cache ∨
      cache.setCheckPointProposal config proposal =
        { cache with checkpointProposal := some proposal } := by
  unfold setCheckPointProposal
  split
  · exact .inl rfl
  split
  · exact .inl rfl
  · exact .inr rfl

theorem checkAndCommitStableCheckPoint_cases (cache : PBFTCache) (config) :
    (cache.checkAndCommitStableCheckPoint config).1 = cache ∨
      ∃ checkpoint proof, cache.checkpointProposal = some checkpoint ∧
        (cache.checkAndCommitStableCheckPoint config).1 = { cache with
          stableCommitted := true
          checkpointProposal := some { checkpoint with signatureProof := proof } } := by
  unfold checkAndCommitStableCheckPoint
  cases hcheckpoint : cache.checkpointProposal with
  | none => exact .inl rfl
  | some checkpoint =>
    dsimp only
    split
    · exact .inl rfl
    · exact .inr ⟨checkpoint, _, rfl, rfl⟩

theorem addPrePrepareCache_cases (cache : PBFTCache) (msg : PBFTMessage) :
    (cache.addPrePrepareCache msg = cache ∧
      (cache.stableCommitted = true ∨ cache.checkpointProposal.isSome = true)) ∨
    cache.addPrePrepareCache msg = { cache with prePrepare := some msg } := by
  unfold addPrePrepareCache
  split
  next h => exact .inl ⟨rfl, .inl h⟩
  split
  next h =>
    rw [Bool.and_eq_true] at h
    exact .inl ⟨rfl, .inr h.1⟩
  · exact .inr rfl

theorem hash_eq_of_not_conflictWithPrecommitReq
    (h : cache.conflictWithPrecommitReq config msg = false)
    (hpre : cache.precommit = some precommit) (hindex : precommit.index = msg.index)
    (hprogressed : config.progressedIndex ≤ precommit.index) : msg.hash = precommit.hash := by
  simp only [conflictWithPrecommitReq, hpre, if_neg (Nat.not_lt.mpr hprogressed)] at h
  simpa [hindex] using h

theorem hash_eq_of_not_conflictWithProcessedReq
    (h : cache.conflictWithProcessedReq config msg = false)
    (hpre : cache.prePrepare = some prePrepare) (hview : msg.view = prePrepare.view) :
    msg.hash = prePrepare.hash := by
  unfold conflictWithProcessedReq at h
  split at h
  · cases h
  split at h
  · cases h
  simp only [hpre, hview, lt_irrefl, if_false, if_true] at h
  simpa using h

theorem readyToPreCommit_eq_some (h : cache.readyToPreCommit config = some prePrepare) :
    cache.prePrepare = some prePrepare ∧ prePrepare.view = config.view ∧
      cache.collectEnoughPrepareReq config = true := by
  unfold readyToPreCommit at h
  split at h
  · cases h
  cases hpre : cache.prePrepare with
  | none => simp [hpre] at h
  | some =>
    simp only [hpre] at h
    split at h
    · cases h
    split at h
    · cases h
    next hview =>
      split at h
      · cases h
      next hcollect =>
        obtain rfl := Option.some.inj h
        exact ⟨rfl, not_not.mp hview, by simpa using hcollect⟩

section PreCommitted

variable (config cache prePrepare)

theorem preCommitted_prePrepare : (cache.preCommitted config prePrepare).prePrepare =
    some (cache.precommitOf config prePrepare) := by
  unfold preCommitted
  split <;> rfl

theorem preCommitted_precommit : (cache.preCommitted config prePrepare).precommit =
    some (cache.precommitOf config prePrepare) := by
  unfold preCommitted
  split <;> rfl

theorem preCommitted_checkpointProposal :
    (cache.preCommitted config prePrepare).checkpointProposal = cache.checkpointProposal := by
  unfold preCommitted
  split <;> rfl

theorem preCommitted_stableCommitted :
    (cache.preCommitted config prePrepare).stableCommitted = cache.stableCommitted := by
  unfold preCommitted
  split <;> rfl

end PreCommitted

end PBFTCache

end Loki.Fisco
