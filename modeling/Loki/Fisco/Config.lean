import Loki.Fisco.Types

/-!
# Configuration of a PBFT node

The node list, the views, the water marks and the committed proposal.  Timers and the sealer are
left out: a timeout may come at any time.
-/

namespace Loki.Fisco

structure PBFTConfig where
  cryptoSuite : CryptoSuite
  nodeID : NodeID
  /-- The hash of the header that `populateEmptyBlock` makes for an index and a sealer. -/
  emptyBlockHash : Nat → Nat → HashType
  consensusNodeList : List ConsensusNode := []
  leaderSwitchPeriod : Nat := 1
  view : Nat := 0
  toView : Nat := 0
  committedProposal : PBFTProposal
  progressedIndex : Nat := 0
  expectedCheckPoint : Nat := 0
  lowWaterMark : Nat := 0
  warterMarkLimit : Nat := 10
  syncingHighestNumber : Nat := 0
  /-- The engine's constructor sets it for the recovery of the view. -/
  timeoutState : Bool := true
  startRecovered : Bool := false
  waitSealUntil : Nat := 0
  waitResealUntil : Nat := 0
  connectedNodeList : List NodeID := []
  faultyDiscriminator : NodeID → Bool := fun _ => false

namespace PBFTConfig

variable (config : PBFTConfig)

def getConsensusNodeByIndex (nodeIndex : Nat) : Option ConsensusNode :=
  config.consensusNodeList[nodeIndex]?

/-- `getNodeIndexByNodeID` of the node's own key. -/
def nodeIndex : Nat :=
  (config.consensusNodeList.findIdx? fun node => node.nodeID == config.nodeID).getD nonConsensusNode

def isConsensusNode : Bool := config.nodeIndex != nonConsensusNode

def consensusNodesNum : Nat := config.consensusNodeList.length

/-- `updateQuorum`, in `uint64_t`. -/
def totalQuorum : Nat := (config.consensusNodeList.map (·.weight)).sum % uint64

def maxFaultyQuorum : Nat := (config.totalQuorum + (uint64 - 1)) % uint64 / 3

def minRequiredQuorum : Nat := (config.totalQuorum + (uint64 - config.maxFaultyQuorum)) % uint64

def leaderIndexInNewViewPeriod (proposalIndex view : Nat) : Nat :=
  (proposalIndex / config.leaderSwitchPeriod + view) % config.consensusNodesNum

def leaderIndex (proposalIndex : Nat) : Nat :=
  config.leaderIndexInNewViewPeriod proposalIndex config.view

def leaderAfterViewChange : Bool :=
  config.nodeIndex == config.leaderIndexInNewViewPeriod config.progressedIndex config.toView

def highWaterMark : Nat := config.progressedIndex + config.warterMarkLimit

def sealStartIndex : Nat := max config.expectedCheckPoint (config.committedProposal.index + 1)

def getLeader : Nat := config.leaderIndex config.sealStartIndex

def setCommittedProposal (proposal : PBFTProposal) : PBFTConfig :=
  { config with
    committedProposal := proposal
    progressedIndex := max config.progressedIndex (proposal.index + 1)
    expectedCheckPoint := max config.expectedCheckPoint (proposal.index + 1)
    lowWaterMark := max config.lowWaterMark (proposal.index + 1) }

def setExpectedCheckPoint (expectedCheckPoint : Nat) : PBFTConfig :=
  { config with
    expectedCheckPoint := max (config.committedProposal.index + 1) expectedCheckPoint }

def resetConfig (ledgerConfig : LedgerConfig) : PBFTConfig :=
  if ledgerConfig.blockNumber ≤ config.committedProposal.index ∧
      0 < config.committedProposal.index then
    config
  else
    { config.setCommittedProposal
        { index := ledgerConfig.blockNumber, hash := ledgerConfig.hash } with
      consensusNodeList := ledgerConfig.consensusNodeList
      leaderSwitchPeriod := ledgerConfig.leaderSwitchPeriod
      timeoutState := decide (ledgerConfig.blockNumber < config.syncingHighestNumber) }

def shouldResetConfig (index : Nat) : Bool := config.committedProposal.index < index

def resetToView : PBFTConfig := { config with toView := config.view, timeoutState := false }

def resetTimeoutState : PBFTConfig :=
  { config with timeoutState := true, toView := config.toView + 1 }

def resetNewViewState (view : Nat) : PBFTConfig :=
  if view < config.view then
    config
  else
    { config with startRecovered := true, view := view, toView := view, timeoutState := false }

def canHandleNewProposal (index : Nat) : Bool :=
  (config.waitSealUntil ≤ config.committedProposal.index &&
      config.waitResealUntil ≤ config.committedProposal.index) ||
    index ≤ config.committedProposal.index || index ≤ config.waitSealUntil ||
    index ≤ config.waitResealUntil

def isSyncingHigher : Bool :=
  config.committedProposal.index + config.warterMarkLimit ≤ config.syncingHighestNumber

/-- `generateEmptyProposal` of the validator. -/
def generateEmptyProposal (index sealerId : Nat) : PBFTProposal where
  index := index
  hash := config.emptyBlockHash index sealerId
  data := some ⟨index, config.emptyBlockHash index sealerId⟩

/-- What `verifyProposal` checks itself, before the transaction pool is asked. -/
def verifyProposal (proposal : PBFTProposal) : Bool :=
  match proposal.data with
  | none => false
  | some header => header.number == proposal.index

end PBFTConfig

end Loki.Fisco
