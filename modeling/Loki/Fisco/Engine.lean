import Mathlib.Data.Nat.Pairing
import Loki.Foundation.Run
import Loki.Fisco.ViewChange

/-!
# The PBFT engine

The handlers of `PBFTEngine` and of `PBFTLogSync`, with the fuzzer's mutation taken as the identity.
A message of the front service, an answer of another module and a timeout are inputs, and a run is
a list of inputs.
-/

namespace Loki.Fisco

namespace PBFTEngine

variable (s : PBFTEngine) (position : Nat) (msg : PBFTMessage) (proposal : PBFTProposal)

def checkPBFTMsgState (req : PBFTMessage) : Bool :=
  req.consensusProposal.isSome &&
    !(req.index < s.config.lowWaterMark || req.index < s.config.expectedCheckPoint ||
      s.config.highWaterMark ≤ req.index || req.index ≤ s.config.syncingHighestNumber ||
      s.committedProposalList.contains req.index) &&
    s.config.view ≤ req.view

def checkPrePrepareMsg : Bool :=
  s.checkPBFTMsgState msg && !s.existPrePrepare msg && !s.conflictWithProcessedReq msg &&
    !s.conflictWithPrecommitReq msg

/-- `checkSignature` for a message that `verifySignature` checks against a key. -/
def checkSignature (generatedFrom : Nat) (verifySignature : CryptoSuite → NodeID → Bool) : Bool :=
  match s.config.getConsensusNodeByIndex generatedFrom with
  | none => false
  | some nodeInfo => verifySignature s.config.cryptoSuite nodeInfo.nodeID

def checkMsgSignature : Bool :=
  s.checkSignature msg.generatedFrom (PBFTMessage.verifySignature · · msg)

def checkProposalSignature (generatedFrom : Nat) (proposal : Option PBFTProposal) : Bool :=
  match proposal.bind fun proposal => proposal.signature.map (proposal.hash, ·) with
  | none => false
  | some (hash, signature) =>
    s.checkSignature generatedFrom fun suite pubKey => suite.verify pubKey hash signature

/-- The prepare is labelled with the node's own view, and carries the hash of the proposal. -/
def prepareReq : PBFTMessage :=
  { PBFTMessage.populateVote s.config.cryptoSuite s.config.nodeID .preparePacket s.config.view
      s.config.nodeIndex proposal with index := msg.index }.encode
    s.config.cryptoSuite s.config.nodeID

def broadcastPrepareMsg : PBFTEngine :=
  match msg.consensusProposal with
  | none => s
  | some proposal =>
    let prepareMsg := s.prepareReq msg proposal
    ((s.addPrepareCache prepareMsg).send (.pbft prepareMsg)).checkAndPreCommit

/-- The checks of `handlePrePrepareMsg` that come before the proposal is verified. -/
def admitsPrePrepare (generatedFromNewView needCheckSignature : Bool) : Bool :=
  !s.config.isSyncingHigher && !s.executingProposals.contains msg.hash &&
    s.checkPrePrepareMsg msg &&
    (generatedFromNewView || s.config.leaderIndex msg.index == msg.generatedFrom &&
      (!needCheckSignature || s.checkMsgSignature msg))

def handlePrePrepareMsg (needVerifyProposal generatedFromNewView needCheckSignature : Bool) :
    PBFTEngine × Bool :=
  if !s.admitsPrePrepare msg generatedFromNewView needCheckSignature then (s, false)
  else if !needVerifyProposal then
    (((s.addPrePrepareCache msg).broadcastPrepareMsg msg).checkAndPreCommit, true)
  else if (s.config.getConsensusNodeByIndex msg.generatedFrom).isNone then (s, false)
  else if msg.consensusProposal.any PBFTConfig.verifyProposal then
    ({ s with verifying := s.verifying ++ [(msg, generatedFromNewView)] }, true)
  else (s, true)

def reachNewView (view : Nat) : PBFTEngine :=
  let s := s.setConfig (s.config.resetNewViewState view)
  s.resetCacheAfterViewChange s.config.view s.config.committedProposal.index

/-- One pre-prepare in the loop of `reHandlePrePrepareProposals`, with the greatest index so far. -/
def reHandle (found : PBFTEngine × Nat) (msg : PBFTMessage) : PBFTEngine × Nat :=
  match msg.consensusProposal with
  | none => found
  | some proposal =>
    if proposal.data.isSome then ((found.1.handlePrePrepareMsg msg true true false).1, found.2)
    else
      match found.1.tryToFillProposal msg with
      | some filled =>
        ((found.1.handlePrePrepareMsg filled true true false).1, max found.2 msg.index)
      | none =>
        match found.1.config.getConsensusNodeByIndex msg.generatedFrom with
        | none => (found.1, max found.2 msg.index)
        | some _ =>
          ({ found.1 with requesting := found.1.requesting ++ [msg] }, max found.2 msg.index)

def reHandlePrePrepareProposals (newView : NewViewMsg) : PBFTEngine :=
  let s := s.reachNewView newView.view
  let (s, maxProposalIndex) :=
    newView.prePrepareList.foldl reHandle (s, s.config.committedProposal.index)
  if newView.prePrepareList.isEmpty then s
  else s.setConfig { s.config with waitResealUntil := maxProposalIndex }

def generateViewChange : ViewChangeMsg where
  view := s.config.toView
  index := s.config.committedProposal.index
  hash := s.config.committedProposal.hash
  generatedFrom := s.config.nodeIndex
  committedProposal := s.config.committedProposal
  preparedProposals := s.caches.toList.filterMap (·.2.preCommitWithoutData)

def tryIntoNewView : PBFTEngine :=
  let (s, newViewMsg) := s.checkAndTryIntoNewView
  match newViewMsg with
  | none => s
  | some newViewMsg => s.reHandlePrePrepareProposals newViewMsg

/-- `sendViewChange` and `broadcastViewChangeReq`. -/
def sendViewChange : PBFTEngine :=
  let viewChangeReq := s.generateViewChange.encode s.config.cryptoSuite s.config.nodeID
  ((s.send (.viewChange viewChangeReq)).addViewChangeReq viewChangeReq).tryIntoNewView

def triggerTimeout : PBFTEngine :=
  let s := s.setConfig s.config.resetTimeoutState
  (s.removeInvalidViewChange s.config.view s.config.committedProposal.index).sendViewChange

def tryTriggerFastViewChange : Nat → PBFTEngine → Nat → PBFTEngine
  | 0, s, _ => s
  | fuel + 1, s, leaderIndex =>
    if s.config.connectedNodeList.isEmpty || !s.config.isConsensusNode ||
        leaderIndex == s.config.nodeIndex then s
    else
      match s.config.getConsensusNodeByIndex leaderIndex with
      | none => s
      | some leader =>
        if s.config.connectedNodeList.contains leader.nodeID &&
            !s.config.faultyDiscriminator leader.nodeID then s
        else
          let s := s.triggerTimeout
          tryTriggerFastViewChange fuel s
            (s.config.leaderIndexInNewViewPeriod s.config.progressedIndex s.config.toView)

def resetTimer : PBFTEngine :=
  if s.caches.any fun _ cache => !cache.shouldStopTimer s.config then s
  else tryTriggerFastViewChange (s.config.consensusNodesNum + 1) s s.config.getLeader

def checkAndCommit : PBFTEngine := s.checkAndCommitCaches.resetTimer

def checkPBFTMsg : Bool :=
  s.checkPBFTMsgState msg && msg.generatedFrom != s.config.nodeIndex &&
    !(s.existPrePrepare msg && s.conflictWithProcessedReq msg) && s.checkMsgSignature msg

def handlePrepareMsg : PBFTEngine :=
  if s.checkPBFTMsg msg && s.checkProposalSignature msg.generatedFrom msg.consensusProposal then
    (s.addPrepareCache msg).checkAndPreCommit
  else s

def handleCommitMsg : PBFTEngine :=
  if s.checkPBFTMsg msg then (s.addCommitReq msg).checkAndCommit else s

def sendRecoverResponse : PBFTEngine :=
  let response : PBFTMessage := {
    view := s.config.view
    index := s.config.committedProposal.index
    hash := 0
    generatedFrom := s.config.nodeIndex
    packetType := .recoverResponse }
  s.send (.pbft (response.encode s.config.cryptoSuite s.config.nodeID))

section

variable (msg : ViewChangeMsg)

/-- A peer whose view falls behind is answered, which may take the node itself to a new view. -/
def answerViewChange : PBFTEngine :=
  if msg.view < s.config.view || msg.view + 1 < s.config.toView then
    if s.config.timeoutState then s.sendViewChange.sendRecoverResponse else s.sendRecoverResponse
  else s

/-- The checks of `isValidViewChangeMsg` that come after the answer. -/
def acceptsViewChange : Bool :=
  s.config.view ≤ msg.view &&
    !(msg.committedProposal.index == s.config.committedProposal.index &&
      msg.committedProposal.hash != s.config.committedProposal.hash) &&
    msg.preparedProposals.all s.config.checkPrecommitMsg &&
    s.checkSignature msg.generatedFrom (ViewChangeMsg.verifySignature · · msg)

def isValidViewChangeMsg : PBFTEngine × Bool :=
  if msg.committedProposal.index < s.config.committedProposal.index then (s, false)
  else (s.answerViewChange msg, (s.answerViewChange msg).acceptsViewChange msg)

/-- A view change of the next leader, or enough weight for one view, may show that the others have
gone on to a greater view. -/
def fastViewChange : PBFTEngine :=
  if msg.generatedFrom == s.config.leaderIndexInNewViewPeriod (msg.index + 1) msg.index ||
      s.config.maxFaultyQuorum < s.viewChangeWeight[msg.view]?.getD 0 then
    if 0 < s.tryToTriggerFastViewChange.2 then s.tryToTriggerFastViewChange.1.triggerTimeout
    else s.tryToTriggerFastViewChange.1
  else s

def handleViewChangeMsg : PBFTEngine :=
  if (s.isValidViewChangeMsg msg).2 then
    (((s.isValidViewChangeMsg msg).1.addViewChangeReq msg).fastViewChange msg).tryIntoNewView
  else (s.isValidViewChangeMsg msg).1

end

/-- The loop of `isValidNewViewMsg`, with the weight summed so far. -/
def checkViewChanges (s : PBFTEngine) (weight : Nat) :
    List ViewChangeMsg → PBFTEngine × Option Nat
  | [] => (s, some weight)
  | msg :: viewChangeList =>
    match s.isValidViewChangeMsg msg with
    | (s, false) => (s, none)
    | (s, true) =>
      match s.config.getConsensusNodeByIndex msg.generatedFrom with
      | none => s.checkViewChanges weight viewChangeList
      | some nodeInfo => s.checkViewChanges ((weight + nodeInfo.weight) % uint64) viewChangeList

def isValidNewViewMsg (msg : NewViewMsg) : PBFTEngine × Bool :=
  if msg.view ≤ s.config.view then (s, false)
  else
    match s.checkViewChanges 0 msg.viewChangeMsgList with
    | (s, none) => (s, false)
    | (s, some weight) =>
      if weight < s.config.minRequiredQuorum then (s, false)
      else (s, s.checkSignature msg.generatedFrom (NewViewMsg.verifySignature · · msg))

def handleNewViewMsg (msg : NewViewMsg) : PBFTEngine :=
  if (s.isValidNewViewMsg msg).2 then (s.isValidNewViewMsg msg).1.reHandlePrePrepareProposals msg
  else (s.isValidNewViewMsg msg).1

def handleCheckPointMsg : PBFTEngine :=
  if msg.index ≤ s.config.committedProposal.index || s.config.isSyncingHigher ||
      !s.checkMsgSignature msg ||
      !s.checkProposalSignature msg.generatedFrom msg.consensusProposal then s
  else
    let s := (s.addCheckPointMsg msg).tryToApplyCommitQueue.1
    let (s, request) := s.checkAndCommitStableCheckPoint.shouldRequestCheckPoint msg
    if request then { s with fetching := s.fetching ++ [msg.index] } else s

def handleRecoverResponse : PBFTEngine :=
  if s.checkMsgSignature msg then (s.addRecoverReqCache msg).checkAndTryToRecover else s

def handleRecoverRequest : PBFTEngine :=
  if s.checkMsgSignature msg then s.sendRecoverResponse else s

def handlePBFTMessage : PBFTEngine :=
  match msg.packetType with
  | .prePreparePacket => (s.handlePrePrepareMsg msg true false true).1
  | .preparePacket => s.handlePrepareMsg msg
  | .commitPacket => s.handleCommitMsg msg
  | .checkPoint => s.handleCheckPointMsg msg
  | .recoverRequest => s.handleRecoverRequest msg
  | .recoverResponse => s.handleRecoverResponse msg
  | _ => s

/-- `executeWorker` and `handleMsg`.  A packet that cannot be handled yet stays in the queue. -/
def handleMsg (msg : Message) : PBFTEngine :=
  if !s.config.isConsensusNode || s.config.isSyncingHigher then s
  else
    match msg with
    | .pbft msg =>
      if maxView < msg.view then s
      else if (msg.packetType = .prePreparePacket || msg.packetType = .preparePacket ||
          msg.packetType = .commitPacket) && !s.config.canHandleNewProposal msg.index then s
      else s.handlePBFTMessage msg
    | .viewChange msg => if maxView < msg.view then s else s.handleViewChangeMsg msg
    | .newView msg => if maxView < msg.view then s else s.handleNewViewMsg msg

variable (containSysTxs : Bool) (data : Option BlockHeader) (index : Nat)

def ownPrePrepare (hash : HashType) : PBFTMessage :=
  PBFTMessage.populatePrePrepare
    { index := index
      hash := hash
      sealerId := s.config.nodeIndex
      systemProposal := containSysTxs
      data := data } s.config.view s.config.nodeIndex

/-- `onRecvProposal`: the sealer hands over a block. -/
def onRecvProposal (hash : HashType) : PBFTEngine :=
  if data.isNone || index ≤ s.config.syncingHighestNumber ||
      index ≤ s.config.committedProposal.index || index < s.config.expectedCheckPoint ||
      index < s.config.lowWaterMark || s.config.leaderIndex index != s.config.nodeIndex ||
      s.config.timeoutState then s
  else
    let msg := s.ownPrePrepare containSysTxs data index hash
    let (s, handled) := s.handlePrePrepareMsg msg false false false
    if handled then s.send (.pbft (msg.encode s.config.cryptoSuite s.config.nodeID)) else s

/-- The callback of `verifyProposal`, for the pre-prepare at a position of the pending ones. -/
def onVerifyFinished (verifyResult : Bool) : PBFTEngine :=
  match s.verifying[position]? with
  | none => s
  | some (msg, generatedFromNewView) =>
    let s := { s with verifying := s.verifying.eraseIdx position }
    if msg.index ≤ s.config.committedProposal.index || !verifyResult then s
    else (s.handlePrePrepareMsg msg false generatedFromNewView false).1

/-- The peer's answer to `requestPrecommitData`: the data is taken from a precommit whose proposal
has the index and the hash that were asked for. -/
def onRecvPrecommitResponse (precommitMsg : PBFTMessage) : PBFTEngine :=
  match s.requesting[position]? with
  | none => s
  | some msg =>
    let s := { s with requesting := s.requesting.eraseIdx position }
    match precommitMsg.consensusProposal, msg.consensusProposal with
    | some precommit, some proposal =>
      if precommit.index ≠ proposal.index ∨ precommit.hash ≠ proposal.hash then s
      else if !s.config.checkPrecommitMsg precommitMsg then s
      else
        (s.handlePrePrepareMsg
          { msg with consensusProposal := some { proposal with data := precommit.data } }
          true true false).1
    | _, _ => s

/-- The branch of `loadAndVerifyProposal` for a proposal that is not verified. -/
def loadFailed : PBFTEngine :=
  s.setConfig { s.config with
    lowWaterMark := max (min s.config.lowWaterMark (proposal.index - 1)) s.config.progressedIndex }

/-- One proposal in the loop of `initState`. -/
def loadAndVerifyProposal : PBFTEngine :=
  if proposal.index ≤ s.config.committedProposal.index then s
  else if PBFTConfig.verifyProposal proposal then { s with loading := s.loading ++ [proposal] }
  else s.loadFailed proposal

/-- The peer's answer to `requestCommittedProposals`, or its error. -/
def onRecvCommittedProposalsResponse (response : Option (List PBFTProposal)) : PBFTEngine :=
  match s.fetching[position]? with
  | none => s
  | some index =>
    let s := { s with fetching := s.fetching.eraseIdx position }
    match response with
    | none => { s with committedProposalList := s.committedProposalList.filter (· != index) }
    | some proposals => proposals.foldl loadAndVerifyProposal s

/-- The callback of `loadAndVerifyProposal`. -/
def onLoadAndVerifyProposal (verifyResult : Bool) : PBFTEngine :=
  match s.loading[position]? with
  | none => s
  | some proposal =>
    let s := { s with loading := s.loading.eraseIdx position }
    if verifyResult then s.updateCommitQueue proposal else s.loadFailed proposal

def onTimeout : PBFTEngine :=
  if !s.config.isConsensusNode then s
  else
    let (s, applied) := s.tryToApplyCommitQueue
    if applied then s
    else
      let s := s.clearExpiredExecutingProposal
      if !s.executingProposals.isEmpty then s else s.triggerTimeout

def onExecuteFinished (executed : Option PBFTProposal) : PBFTEngine :=
  match s.applying[position]? with
  | none => s
  | some (_, proposal) =>
    let s := { s with applying := s.applying.eraseIdx position }
    if proposal.index ≤ s.config.committedProposal.index then s
    else { s with finished := s.finished ++ [(proposal, executed)] }

def onProposalApplyFailed : PBFTEngine :=
  let s :=
    if s.config.committedProposal.index ≤ proposal.index ||
        s.config.syncingHighestNumber ≤ proposal.index then
      (s.eraseExecutedProposal proposal.hash).updateCommitQueue proposal
    else s
  let s := s.setConfig (s.config.setExpectedCheckPoint (s.config.committedProposal.index + 1))
  s.eraseExecutedProposal proposal.hash

def checkPointReq (executed : PBFTProposal) : PBFTMessage :=
  (PBFTMessage.populateVote s.config.cryptoSuite s.config.nodeID .checkPoint s.config.view
    s.config.nodeIndex executed).encode s.config.cryptoSuite s.config.nodeID

def onProposalApplySuccess (proposal executed : PBFTProposal) : PBFTEngine :=
  let checkPointMsg := s.checkPointReq executed
  let s := ((s.send (.pbft checkPointMsg)).addCheckPointMsg checkPointMsg)
  let s := s.setCheckPointProposal executed
  let s := s.setConfig (s.config.setExpectedCheckPoint (executed.index + 1))
  s.checkAndCommitStableCheckPoint.tryToApplyCommitQueue.1.eraseExecutedProposal proposal.hash

def onProposalApplied : PBFTEngine :=
  match s.finished with
  | [] => s
  | (proposal, executed) :: finished =>
    let s := { s with finished := finished }
    match executed with
    | none => s.onProposalApplyFailed proposal
    | some executed => s.onProposalApplySuccess proposal executed

def onCheckPointTimeout (index : Nat) : PBFTEngine :=
  match s.caches[index]?.bind (·.checkpointProposal) with
  | none => s
  | some proposal => s.send (.pbft (s.checkPointReq proposal))

def finalizeConsensus (ledgerConfig : LedgerConfig) (syncedBlock : Bool) : PBFTEngine :=
  let s := s.setConfig (s.config.resetConfig ledgerConfig)
  let s := s.tryToApplyCommitQueue.1
  let s := s.removeConsensusedCache s.config.view ledgerConfig.blockNumber
  let s := s.tryToCommitStableCheckPoint.resetTimer
  if syncedBlock then s.removeFutureProposals else s

/-- The storage has committed the oldest stable checkpoint it was given, with the node list and the
leader period that hold from then on, or has failed to. -/
def onStableCheckPointCommitted (ledgerConfig : Option LedgerConfig) : PBFTEngine :=
  match s.committing with
  | [] => s
  | stable :: committing =>
    let s := { s with committing := committing }
    match ledgerConfig with
    | none => s
    | some ledgerConfig =>
      s.finalizeConsensus { ledgerConfig with
        blockNumber := stable.index, hash := stable.hash } false

def asyncNotifyNewBlock (ledgerConfig : LedgerConfig) : PBFTEngine :=
  if s.config.shouldResetConfig ledgerConfig.blockNumber then
    s.finalizeConsensus ledgerConfig true
  else s

end PBFTEngine

/-- What can happen to an engine.  Positions point into the lists of pending calls. -/
inductive Input where
  | message (msg : Message)
  | proposal (containSysTxs : Bool) (data : Option BlockHeader) (index : Nat) (hash : HashType)
  | verified (position : Nat) (verifyResult : Bool)
  | precommitResponse (position : Nat) (precommitMsg : PBFTMessage)
  | committedResponse (position : Nat) (response : Option (List PBFTProposal))
  | loaded (position : Nat) (verifyResult : Bool)
  | timeout
  | executed (position : Nat) (executed : Option PBFTProposal)
  | applied
  | checkPointTimeout (index : Nat)
  | committed (ledgerConfig : Option LedgerConfig)
  | newBlock (ledgerConfig : LedgerConfig)
  | syncing (number : Nat)
  | connected (nodeList : List NodeID)

namespace PBFTEngine

def step (s : PBFTEngine) : Input → PBFTEngine
  | .message msg => s.handleMsg msg
  | .proposal containSysTxs data index hash => s.onRecvProposal containSysTxs data index hash
  | .verified position verifyResult => s.onVerifyFinished position verifyResult
  | .precommitResponse position precommitMsg => s.onRecvPrecommitResponse position precommitMsg
  | .committedResponse position response => s.onRecvCommittedProposalsResponse position response
  | .loaded position verifyResult => s.onLoadAndVerifyProposal position verifyResult
  | .timeout => s.onTimeout
  | .executed position executed => s.onExecuteFinished position executed
  | .applied => s.onProposalApplied
  | .checkPointTimeout index => s.onCheckPointTimeout index
  | .committed ledgerConfig => s.onStableCheckPointCommitted ledgerConfig
  | .newBlock ledgerConfig => s.asyncNotifyNewBlock ledgerConfig
  | .syncing number => s.setConfig { s.config with syncingHighestNumber := number }
  | .connected nodeList => s.setConfig { s.config with connectedNodeList := nodeList }

def run (s : PBFTEngine) (inputs : List Input) : PBFTEngine := inputs.foldl step s

abbrev Along (C : PBFTEngine → Input → Prop) (s : PBFTEngine) (inputs : List Input) : Prop :=
  Foundation.Along step C s inputs

def init (cryptoSuite : CryptoSuite) (nodeID : NodeID) (emptyBlockHash : Nat → Nat → HashType)
    (faultyDiscriminator : NodeID → Bool) (ledgerConfig : LedgerConfig) : PBFTEngine where
  config := PBFTConfig.resetConfig
    { cryptoSuite := cryptoSuite
      nodeID := nodeID
      emptyBlockHash := emptyBlockHash
      committedProposal := { index := 0, hash := 0 }
      faultyDiscriminator := faultyDiscriminator } ledgerConfig

def IsInit (s : PBFTEngine) : Prop :=
  ∃ cryptoSuite nodeID emptyBlockHash faultyDiscriminator ledgerConfig,
    s = init cryptoSuite nodeID emptyBlockHash faultyDiscriminator ledgerConfig

end PBFTEngine

/-! ### Four nodes of weight one -/

section FourNodes

def pairingSuite : CryptoSuite where
  hash
    | .hashFields msg =>
      3 * Nat.pair (Nat.pair msg.view msg.index) (Nat.pair msg.hash msg.generatedFrom)
    | .viewChange payLoad =>
      3 * Nat.pair (Nat.pair payLoad.view payLoad.index)
        (Nat.pair payLoad.hash payLoad.generatedFrom) + 1
    | .newView payLoad =>
      3 * Nat.pair (Nat.pair payLoad.view payLoad.index)
        (Nat.pair payLoad.hash payLoad.generatedFrom) + 2
  sign keyPair hash := 2 ^ keyPair * (2 * hash + 1)
  verify pubKey hash signature := signature == 2 ^ pubKey * (2 * hash + 1)

def fourNodes (blockNumber : Nat) (hash : HashType) : LedgerConfig where
  blockNumber := blockNumber
  hash := hash
  consensusNodeList := [⟨0, 1⟩, ⟨1, 1⟩, ⟨2, 1⟩, ⟨3, 1⟩]
  leaderSwitchPeriod := 1
  consensusNodeList_ne_nil := by decide
  leaderSwitchPeriod_pos := by decide

/-- One of the four nodes, after block `2`. -/
def startNode (nodeID : NodeID) : PBFTEngine :=
  .init pairingSuite nodeID (fun _ _ => 99) (fun _ => false) (fourNodes 2 7)

def voteOf (packetType : PacketType) (node view index : Nat) (hash : HashType) : PBFTMessage :=
  (PBFTMessage.populateVote pairingSuite node packetType view node
    { index := index, hash := hash }).encode pairingSuite node

def prePrepareOf (node view index : Nat) (hash : HashType) : PBFTMessage :=
  (PBFTMessage.populatePrePrepare
    { index := index, hash := hash, data := some ⟨index, hash⟩ } view node).encode pairingSuite node

end FourNodes

end Loki.Fisco
