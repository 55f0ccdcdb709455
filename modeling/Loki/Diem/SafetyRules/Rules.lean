import Loki.Diem.SafetyRules.Storage

/-!
# The safety rules

`consensus/safety-rules/src/safety_rules.rs` and `safety_rules_2chain.rs`: the methods by which a
validator signs votes, timeouts, proposals and commit votes, in the three-chain and in the
two-chain protocol, and the initialisation at the start of an epoch.
-/

namespace Loki.Diem

open Loki.Foundation
open PersistentSafetyStorage (Access author consensusKeyForVersion safetyData setSafetyData
  setWaypoint waypoint)
open Call (check fail gets lift)

inductive ConfigurableValidatorSigner where
  | signer (author : AccountAddress) (consensusKey : PrivateKey)
  | handle (author : AccountAddress) (keyVersion : PublicKey)
  deriving DecidableEq, Repr

namespace ConfigurableValidatorSigner

variable (C : Crypto)

def author : ConfigurableValidatorSigner → AccountAddress
  | .signer author _ => author
  | .handle author _ => author

def publicKey : ConfigurableValidatorSigner → PublicKey
  | .signer _ consensusKey => C.publicKey consensusKey
  | .handle _ keyVersion => keyVersion

def sign (message : Message) : ConfigurableValidatorSigner →
    Access Signature
  | .signer _ consensusKey => pure (C.sign consensusKey message)
  | .handle _ keyVersion => PersistentSafetyStorage.sign C keyVersion message

end ConfigurableValidatorSigner

structure SafetyRules where
  persistentStorage : PersistentSafetyStorage
  executionPublicKey : Option PublicKey
  exportConsensusKey : Bool
  validatorSigner : Option ConfigurableValidatorSigner
  epochState : Option EpochState
  decoupledExecution : Bool
  deriving DecidableEq

def nextRound (round : Nat) : Except Error Nat :=
  ensure (round + 1 < u64Bound) (.incorrectRound round) >>= fun _ => pure (round + 1)

def Fault.map {ε ε' : Type} (f : ε → ε') : Fault ε → Fault ε'
  | .error e => .error (f e)
  | .panic message => .panic message

namespace SafetyData

variable (data : SafetyData)

/-- `observe_qc`. -/
def observeQc (qc : QuorumCert) : SafetyData :=
  { data with
    oneChainRound := max data.oneChainRound qc.certifiedBlock.round
    preferredRound := max data.preferredRound qc.parentBlock.round }

def verifyAndUpdatePreferredRound (qc : QuorumCert) : Except Error SafetyData := do
  ensure (data.preferredRound ≤ qc.certifiedBlock.round)
    (.incorrectPreferredRound qc.certifiedBlock.round data.preferredRound)
  return data.observeQc qc

def verifyAndUpdateLastVoteRound (round : Nat) : Except Error SafetyData := do
  ensure (data.lastVotedRound < round) (.incorrectLastVotedRound round data.lastVotedRound)
  return { data with lastVotedRound := round }

def verifyEpoch (epoch : Nat) : Except Error Unit :=
  ensure (epoch = data.epoch) (.incorrectEpoch epoch data.epoch)

def votedIn (round : Nat) : Option Vote := data.lastVote.filter fun vote => vote.round = round

end SafetyData

variable (block : Block) (tc : Option TwoChainTimeoutCertificate)

/-- The three-chain commit rule: the grandparent is committed when the rounds of the three blocks
are contiguous.  The second `next_round` is evaluated only if the first comparison holds. -/
def constructLedgerInfo (consensusDataHash : HashValue) : Except Error LedgerInfo := do
  let qc := block.quorumCert
  let next0 ← nextRound qc.parentBlock.round
  let commit ←
    if next0 = qc.certifiedBlock.round then do
      let next1 ← nextRound qc.certifiedBlock.round
      pure (decide (next1 = block.round))
    else pure false
  return {
    commitInfo := if commit then qc.parentBlock else BlockInfo.empty
    consensusDataHash := consensusDataHash }

def constructLedgerInfo2chain (consensusDataHash : HashValue) : Except Error LedgerInfo := do
  let next0 ← nextRound block.quorumCert.certifiedBlock.round
  return {
    commitInfo :=
      if next0 = block.round then block.quorumCert.certifiedBlock else BlockInfo.empty
    consensusDataHash := consensusDataHash }

def tcRound : Nat := (tc.map TwoChainTimeoutCertificate.round).getD 0

def tcHqcRound : Nat := (tc.map TwoChainTimeoutCertificate.highestHqcRound).getD 0

def safeToTimeout (timeout : TwoChainTimeout) (tc : Option TwoChainTimeoutCertificate)
    (data : SafetyData) : Except Error Unit := do
  let round := timeout.round
  let qcRound := timeout.hqcRound
  let nextQc ← nextRound qcRound
  let follows ←
    if round = nextQc then pure true
    else do
      let nextTc ← nextRound (tcRound tc)
      pure (decide (round = nextTc))
  ensure (follows = true ∧ data.oneChainRound ≤ qcRound)
    (.notSafeToTimeout round qcRound (tcRound tc) data.oneChainRound)

def safeToVote : Except Error Unit := do
  let round := block.round
  let qcRound := block.quorumCert.certifiedBlock.round
  let nextQc ← nextRound qcRound
  let safe ←
    if round = nextQc then pure true
    else do
      let nextTc ← nextRound (tcRound tc)
      pure (decide (round = nextTc) && decide (tcHqcRound tc ≤ qcRound))
  ensure (safe = true) (.notSafeToVote round qcRound (tcRound tc) (tcHqcRound tc))

namespace SafetyRules

abbrev Method := Call SafetyRules Error

variable (C : Crypto)

def onStorage {α : Type} (x : Access α) : Method α :=
  Call.onPart persistentStorage (fun rules storage => { rules with persistentStorage := storage })
    x

/-- `SafetyRules::new`; there is no result when the execution key cannot be read. -/
def new (storage : PersistentSafetyStorage)
    (verifyVoteProposalSignature exportConsensusKey decoupledExecution : Bool) :
    Option SafetyRules :=
  let rules (storage : PersistentSafetyStorage) (key : Option PublicKey) : SafetyRules := {
    persistentStorage := storage
    executionPublicKey := key
    exportConsensusKey := exportConsensusKey
    validatorSigner := none
    epochState := none
    decoupledExecution := decoupledExecution }
  if verifyVoteProposalSignature && !decoupledExecution then
    match (PersistentSafetyStorage.executionPublicKey C).exec storage with
    | (.ok key, storage) => some (rules storage (some key))
    | (.error _, _) => none
  else
    some (rules storage none)

def getSigner : Method ConfigurableValidatorSigner := do
  let signer ← gets validatorSigner
  check (okOr signer (.notInitialized "validator_signer"))

def getEpochState : Method EpochState := do
  let state ← gets epochState
  check (okOr state (.notInitialized "epoch_state"))

def sign (message : Message) : Method Signature := do
  let signer ← getSigner
  onStorage (signer.sign C message)

def verifyQc (qc : QuorumCert) : Method Unit := do
  let state ← getEpochState
  check (mapErr .invalidQuorumCertificate (qc.verify C state.verifier))

def verifyTc (tc : TwoChainTimeoutCertificate) : Method Unit := do
  let state ← getEpochState
  check (mapErr .invalidTimeoutCertificate (tc.verify C state.verifier))

def verifyTc? : Option TwoChainTimeoutCertificate → Method Unit
  | some tc => verifyTc C tc
  | none => pure ()

def extensionCheck (proposal : VoteProposal) : Method VoteData := do
  let newTree ← lift (mapErr (Fault.map .invalidAccumulatorExtension)
    (proposal.accumulatorExtensionProof.verify C
      proposal.block.quorumCert.certifiedBlock.executedStateId))
  return proposal.voteDataWithExtensionProof C newTree

def verifyExecutionSignature (proposal : MaybeSignedVoteProposal) : Method Unit := do
  match ← gets executionPublicKey with
  | some key =>
    let signature ← check (okOr proposal.signature .voteProposalSignatureNotFound)
    check (ensure
      (C.verify key (.voteProposal proposal.voteProposal) signature = true)
      (.internalError "signature error"))
  | none => pure ()

def verifyProposal (now : Nat) (proposal : MaybeSignedVoteProposal) : Method VoteData := do
  verifyExecutionSignature C proposal
  let block := proposal.voteProposal.block
  let data ← onStorage safetyData
  check (data.verifyEpoch block.epoch)
  verifyQc C block.quorumCert
  let state ← getEpochState
  check (mapErr .invalidProposal (block.validateSignature C state.verifier))
  check (mapErr .invalidProposal (block.verifyWellFormed now))
  let decoupled ← gets decoupledExecution
  if decoupled then
    return proposal.voteProposal.voteDataOrderingOnly C
  else
    extensionCheck C proposal.voteProposal

def signAndPersistVote (voteData : VoteData) (ledgerInfo : Except Error LedgerInfo)
    (data : SafetyData) : Method Vote := do
  let signer ← getSigner
  let li ← check ledgerInfo
  let signature ← sign C (.ledgerInfo li)
  let vote := Vote.newWithSignature voteData signer.author li signature
  onStorage (setSafetyData { data with lastVote := some vote })
  return vote

variable (now : Nat) (proposal : MaybeSignedVoteProposal)

def constructAndSignVote : Method Vote := do
  let _ ← getSigner
  let voteData ← verifyProposal C now proposal
  let data ← onStorage safetyData
  let block := proposal.voteProposal.block
  match data.votedIn block.round with
  | some vote => return vote
  | none =>
    let data ← check (data.verifyAndUpdatePreferredRound block.quorumCert)
    let data ← check (data.verifyAndUpdateLastVoteRound block.round)
    signAndPersistVote C voteData (constructLedgerInfo block (voteData.hash C)) data

def constructAndSignVoteTwoChain (tc : Option TwoChainTimeoutCertificate) : Method Vote := do
  let _ ← getSigner
  let voteData ← verifyProposal C now proposal
  verifyTc? C tc
  let data ← onStorage safetyData
  let block := proposal.voteProposal.block
  match data.votedIn block.round with
  | some vote => return vote
  | none =>
    let data ← check (data.verifyAndUpdateLastVoteRound block.round)
    check (safeToVote block tc)
    signAndPersistVote C voteData (constructLedgerInfo2chain block (voteData.hash C))
      (data.observeQc block.quorumCert)

def raiseRoundAndSign (data : SafetyData) (round : Nat) (message : Message) : Method Signature := do
  check (ensure (data.lastVotedRound ≤ round)
    (.incorrectLastVotedRound round data.lastVotedRound))
  if data.lastVotedRound < round then
    let data ← check (data.verifyAndUpdateLastVoteRound round)
    onStorage (setSafetyData data)
  sign C message

def signTimeout (timeout : Timeout) : Method Signature := do
  let _ ← getSigner
  let data ← onStorage safetyData
  check (data.verifyEpoch timeout.epoch)
  check (ensure (data.preferredRound < timeout.round)
    (.incorrectPreferredRound timeout.round data.preferredRound))
  raiseRoundAndSign C data timeout.round (.timeout timeout)

def signTimeoutWithQc (timeout : TwoChainTimeout) (tc : Option TwoChainTimeoutCertificate) :
    Method Signature := do
  let _ ← getSigner
  let data ← onStorage safetyData
  check (data.verifyEpoch timeout.epoch)
  verifyQc C timeout.quorumCert
  verifyTc? C tc
  check (safeToTimeout timeout tc data)
  raiseRoundAndSign C data timeout.round (.timeoutSigningRepr timeout.signingFormat)

def verifyAuthor (author : Option Author) : Method Unit := do
  let signer ← getSigner
  let author ← check (okOr author (.invalidProposal "No author found in the proposal"))
  check (ensure (signer.author = author)
    (.invalidProposal "Proposal author is not validator signer!"))

def signProposal (data : BlockData) : Method Signature := do
  let _ ← getSigner
  verifyAuthor data.author
  let safetyData ← onStorage safetyData
  check (safetyData.verifyEpoch data.epoch)
  sign C (.blockData data)

def signCommitVote (li : LedgerInfoWithSignatures) (newLi : LedgerInfo) : Method Signature := do
  let _ ← getSigner
  check (ensure (li.ledgerInfo.commitInfo.isOrderedOnly = true)
    (.invalidOrderedLedgerInfo li.ledgerInfo))
  check (ensure (li.ledgerInfo.commitInfo.matchOrderedOnly newLi.commitInfo = true)
    (.inconsistentExecutionResult li.ledgerInfo.commitInfo newLi.commitInfo))
  let state ← getEpochState
  check (mapErr (fun e => .invalidQuorumCertificate e.toString)
    (li.verifySignatures C state.verifier))
  sign C (.ledgerInfo newLi)

/-- The writes of `guarded_initialize` when a new epoch starts. -/
def enterEpoch (li : LedgerInfo) (state : EpochState) : Method Unit := do
  let waypoint ← check (mapErr .internalError (Waypoint.newEpochBoundary C li))
  onStorage (setWaypoint waypoint)
  onStorage (setSafetyData (SafetyData.new state.epoch 0 0 0 none))

/-- The key reconciliation of `guarded_initialize`: find the key that the validator set expects
of this author. -/
def reconcileKey (author : Author) (expectedKey : Option PublicKey) : Method Unit := do
  match expectedKey with
  | none => fail (.validatorNotInSet author)
  | some expectedKey =>
    let current ← gets validatorSigner
    if current.map (ConfigurableValidatorSigner.publicKey C) = some expectedKey then
      pure ()
    else if ← gets exportConsensusKey then
      match ← (onStorage
        (consensusKeyForVersion C expectedKey)).attempt with
      | .ok key =>
        Call.modify fun rules => { rules with validatorSigner := some (.signer author key) }
      | .error (.error (.secureStorageMissingDataError message)) =>
        fail (.validatorKeyNotFound message)
      | .error fault => lift (.error fault)
    else
      Call.modify fun rules => { rules with validatorSigner := some (.handle author expectedKey) }
      match ← (sign C (.timeout { epoch := 0, round := 0 })).attempt with
      | .ok _ => pure ()
      | .error (.error error) => fail (.validatorKeyNotFound error.toString)
      | .error (.panic message) => lift (.error (.panic message))

/-- `guarded_initialize` up to the assignment of `epoch_state`: the proof check and the writes. -/
def installEpochState (proof : EpochChangeProof) : Method EpochState := do
  let waypoint ← onStorage waypoint
  let lastLi ← check (mapErr .invalidEpochChangeProof (proof.verify C (.waypoint waypoint)))
  let li := lastLi.ledgerInfo
  let state ← check (okOr li.nextEpochState .invalidLedgerInfo)
  let data ← onStorage safetyData
  if data.epoch < state.epoch then
    enterEpoch C li state
  Call.modify fun rules => { rules with epochState := some state }
  return state

/-- `guarded_initialize` after the assignment of `epoch_state`. -/
def initializeSigner (state : EpochState) : Method Unit := do
  let author ← onStorage author
  match ← (reconcileKey C author (state.verifier.getPublicKey author)).attempt with
  | .ok () => pure ()
  | .error (.error error) =>
    Call.modify fun rules => { rules with validatorSigner := none }
    fail error
  | .error (.panic message) => lift (.error (.panic message))

def guardedInitialize (proof : EpochChangeProof) : Method Unit := do
  let state ← installEpochState C proof
  initializeSigner C state

end SafetyRules

end Loki.Diem
