import Loki.Fisco.CacheProcessor

/-!
# View changes and clean-up

The methods of `PBFTCacheProcessor` that collect view changes and recover responses, make a new
view from them, check precommit certificates, and drop caches.
-/

namespace Loki.Fisco

namespace PBFTConfig

variable (config : PBFTConfig)

/-- One entry of a list that is supplied by a peer, in the loop of `checkPrecommitWeight`. -/
def addProof (hash : HashType) (weight : Nat) (proof : Nat × Signature) : Option Nat :=
  match config.getConsensusNodeByIndex proof.1 with
  | none => none
  | some nodeInfo =>
    if config.cryptoSuite.verify nodeInfo.nodeID hash proof.2 then
      some ((weight + nodeInfo.weight) % uint64)
    else none

def checkPrecommitWeight (proposal : PBFTProposal) : Bool :=
  match proposal.signatureProof.foldlM (config.addProof proposal.hash) 0 with
  | none => false
  | some weight => config.minRequiredQuorum ≤ weight

def checkPrecommitMsg (precommitMsg : PBFTMessage) : Bool :=
  if config.startRecovered && config.view < precommitMsg.view then false
  else
    match precommitMsg.consensusProposal with
    | none => false
    | some proposal => config.checkPrecommitWeight proposal

end PBFTConfig

namespace PBFTEngine

variable (s : PBFTEngine)

def reCalculateViewChangeWeight : PBFTEngine :=
  { s with viewChangeWeight := s.viewChangeCache.toList.foldl (fun weights entry =>
      weights.insert entry.1 (entry.2.toList.foldl (fun weight change =>
        match s.config.getConsensusNodeByIndex change.2.generatedFrom with
        | none => weight
        | some nodeInfo => (weight + nodeInfo.weight) % uint64) 0)) s.viewChangeWeight }

def removeInvalidViewChange (view latestCommitted : Nat) : PBFTEngine :=
  { s with
    viewChangeCache := (s.viewChangeCache.filter fun reqView _ => view < reqView).map
      fun _ (changes : OrderedMap Nat ViewChangeMsg) =>
        changes.filter fun _ change => latestCommitted ≤ change.index
    viewChangeWeight := s.viewChangeWeight.filter fun reqView _ =>
      view < reqView || !s.viewChangeCache.contains reqView }.reCalculateViewChangeWeight

/-- The two maps of greatest indices are only ever raised. -/
def raiseIndex (view : Nat) (indices : OrderedMap Nat Nat) (index : Nat) : OrderedMap Nat Nat :=
  indices.insert view (indices[view]?.elim index (max · index))

def addViewChangeReq (viewChange : ViewChangeMsg) : PBFTEngine :=
  let view := viewChange.view
  let changes := s.viewChangeCache[view]?.getD ∅
  if changes.contains viewChange.generatedFrom then s
  else
    match s.config.getConsensusNodeByIndex viewChange.generatedFrom with
    | none => s
    | some nodeInfo =>
      { s with
        viewChangeCache := s.viewChangeCache.insert view
          (changes.insert viewChange.generatedFrom viewChange)
        viewChangeWeight := s.viewChangeWeight.insert view
          ((s.viewChangeWeight[view]?.getD 0 + nodeInfo.weight) % uint64)
        maxCommittedIndex :=
          raiseIndex view s.maxCommittedIndex viewChange.committedProposal.index
        -- The line that is logged reads the map with `operator[]`, which makes an entry `0`.
        maxPrecommitIndex := raiseIndex view (viewChange.preparedProposals.foldl
          (fun indices precommit => raiseIndex view indices precommit.index)
          s.maxPrecommitIndex) 0 }

/-- One precommit in the loop of `generatePrePrepareMsg`.  Only a first precommit of an index is
given the name of the node that sent it. -/
def collectPrepared (maxCommitted generatedFrom : Nat) (prepared : OrderedMap Nat PBFTMessage)
    (proposal : PBFTMessage) : OrderedMap Nat PBFTMessage :=
  if proposal.index < maxCommitted then prepared
  else
    match prepared[proposal.index]? with
    | none => prepared.insert proposal.index
        { proposal with generatedFrom := generatedFrom }
    | some precommit =>
      if precommit.hash ≠ proposal.hash ∧ precommit.view < proposal.view then
        prepared.insert proposal.index proposal
      else prepared

def prePrepareFor (prepared : OrderedMap Nat PBFTMessage) (index : Nat) : PBFTMessage :=
  match prepared[index]?.bind fun msg => msg.consensusProposal.map (msg, ·) with
  | some (msg, proposal) =>
    PBFTMessage.populatePrePrepare proposal s.config.toView msg.generatedFrom
  | none =>
    PBFTMessage.populatePrePrepare
      (s.config.generateEmptyProposal index s.config.nodeIndex) s.config.toView
      s.config.nodeIndex

def generatePrePrepareMsg (viewChangeCache : OrderedMap Nat ViewChangeMsg) : List PBFTMessage :=
  let toView := s.config.toView
  let maxCommitted := s.maxCommittedIndex[toView]?.getD s.config.committedProposal.index
  let maxPrecommit := s.maxPrecommitIndex[toView]?.getD s.config.progressedIndex
  let prepared := viewChangeCache.toList.foldl (fun prepared entry =>
    entry.2.preparedProposals.foldl (collectPrepared maxCommitted entry.2.generatedFrom) prepared) ∅
  (List.range' (maxCommitted + 1) (maxPrecommit - maxCommitted)).map (s.prePrepareFor prepared)

def checkAndTryIntoNewView : PBFTEngine × Option NewViewMsg :=
  let toView := s.config.toView
  if s.config.committedProposal.index < s.config.syncingHighestNumber then (s, none)
  else if s.newViewGenerated || !s.config.leaderAfterViewChange then (s, none)
  else
    match s.viewChangeWeight[toView]? with
    | none => (s, none)
    | some weight =>
      if weight < s.config.minRequiredQuorum then (s, none)
      else
        let changes := s.viewChangeCache[toView]?.getD ∅
        let newViewMsg : NewViewMsg := {
          view := toView
          index := s.config.committedProposal.index
          hash := s.config.committedProposal.hash
          generatedFrom := s.config.nodeIndex
          viewChangeMsgList := changes.toList.map (·.2)
          prePrepareList := s.generatePrePrepareMsg changes }
        let newViewMsg := newViewMsg.encode s.config.cryptoSuite s.config.nodeID
        ({ s with newViewGenerated := true }.send (.newView newViewMsg), some newViewMsg)

/-- One view in the loop of `tryToTriggerFastViewChange`: the weight above `toView` and the view to
reach. -/
def countGreaterView (config : PBFTConfig) (found : Nat × Nat)
    (entry : Nat × OrderedMap Nat ViewChangeMsg) : Nat × Nat :=
  if entry.1 ≤ config.toView then found
  else
    (entry.2.toList.foldl (fun weight change =>
        match config.getConsensusNodeByIndex change.1 with
        | none => weight
        | some nodeInfo => (weight + nodeInfo.weight) % uint64) found.1,
      if found.2 = 0 then entry.1 else min found.2 entry.1)

def tryToTriggerFastViewChange : PBFTEngine × Nat :=
  let (greaterViewWeight, viewToReach) :=
    s.viewChangeCache.toList.foldl (countGreaterView s.config) (0, 0)
  if greaterViewWeight < s.config.maxFaultyQuorum + 1 then (s, 0)
  else if viewToReach ≤ s.config.toView then (s, 0)
  else (s.setConfig { s.config with toView := viewToReach - 1 }, viewToReach)

def removeConsensusedCache (view consensusedNumber : Nat) : PBFTEngine :=
  let s := { s with caches := s.caches.filter fun index cache =>
    consensusedNumber < index && !cache.stableCommitted }
  let s := s.removeInvalidViewChange view consensusedNumber
  { s with maxPrecommitIndex := ∅, maxCommittedIndex := ∅, newViewGenerated := false }

def removeInvalidRecoverCache (view : Nat) : PBFTEngine :=
  { s with
    recoverReqCache := s.recoverReqCache.filter fun reqView _ => view < reqView
    recoverCacheWeight := s.recoverCacheWeight.filter fun reqView _ =>
      view < reqView || !s.recoverReqCache.contains reqView }

def resetCacheAfterViewChange (view latestCommitted : Nat) : PBFTEngine :=
  let s := { s with
    caches := s.caches.map fun _ (cache : PBFTCache) => cache.resetCache s.config view
    maxPrecommitIndex := ∅
    maxCommittedIndex := ∅
    newViewGenerated := false }
  (s.removeInvalidViewChange view latestCommitted).removeInvalidRecoverCache view

def removeFutureProposals : PBFTEngine :=
  let committed := s.config.committedProposal.index
  { s with
    config := s.config.setExpectedCheckPoint (committed + 1)
    committedQueue := []
    committedProposalList := []
    stableCheckPointQueue := []
    caches := s.caches.filter fun index cache =>
      !(committed ≤ index && cache.checkpointProposal.isSome) }

def addRecoverReqCache (msg : PBFTMessage) : PBFTEngine :=
  let responses := s.recoverReqCache[msg.view]?.getD ∅
  if responses.contains msg.generatedFrom then s
  else
    let s := { s with recoverReqCache :=
      s.recoverReqCache.insert msg.view (responses.insert msg.generatedFrom msg) }
    match s.config.getConsensusNodeByIndex msg.generatedFrom with
    | none => s
    | some nodeInfo =>
      { s with
        recoverCacheWeight := s.recoverCacheWeight.insert msg.view
          ((s.recoverCacheWeight[msg.view]?.getD 0 + nodeInfo.weight) % uint64) }

def recoveredView : Nat :=
  s.recoverCacheWeight.toList.foldl (fun view entry =>
    if s.config.minRequiredQuorum ≤ entry.2 ∧ view < entry.1 then entry.1 else view) 0

def recoverView (view : Nat) : PBFTEngine :=
  let s := s.setConfig (s.config.resetNewViewState view)
  let s := s.resetCacheAfterViewChange view s.config.committedProposal.index
  { s with recoverReqCache := ∅, recoverCacheWeight := ∅ }

def checkAndTryToRecover : PBFTEngine :=
  if s.recoveredView = 0 then s else s.recoverView s.recoveredView

end PBFTEngine

end Loki.Fisco
