import Loki.Diem.Accumulator
import Loki.Diem.ValidatorVerifier

/-!
# Blocks, certificates and votes

The checks that the types of `consensus/consensus-types` make on themselves, and what passing
them means.
-/

namespace Loki.Diem

open Loki.Foundation ValidatorVerifier VoteData

namespace BlockInfo

def hasReconfiguration (info : BlockInfo) : Bool := info.nextEpochState.isSome

def nextBlockEpoch (info : BlockInfo) : Nat :=
  match info.nextEpochState with
  | some state => state.epoch
  | none => info.epoch

def matchOrderedOnly (info other : BlockInfo) : Bool :=
  info.epoch == other.epoch && info.round == other.round && info.id == other.id &&
    info.timestampUsecs == other.timestampUsecs

def isOrderedOnly (info : BlockInfo) : Bool :=
  info != BlockInfo.empty && info.nextEpochState == none &&
    info.executedStateId == accumulatorPlaceholderHash && info.version == 0

end BlockInfo

namespace LedgerInfo

variable (li : LedgerInfo)

def epoch : Nat := li.commitInfo.epoch

def version : Nat := li.commitInfo.version

def nextEpochState : Option EpochState := li.commitInfo.nextEpochState

def endsEpoch : Bool := li.nextEpochState.isSome

end LedgerInfo

def VoteData.verify (data : VoteData) : Except String Unit := do
  ensure (data.parent.epoch = data.proposed.epoch) "Parent and proposed epochs do not match"
  ensure (data.parent.round < data.proposed.round) "Proposed round is less than parent round"
  ensure (data.parent.timestampUsecs ≤ data.proposed.timestampUsecs)
    "Proposed happened before parent"
  ensure (data.parent.version ≤ data.proposed.version)
    "Proposed version is less than parent version"

theorem VoteData.verify_round_lt {data : VoteData} {u} (h : data.verify = .ok u) :
    data.parent.round < data.proposed.round := by
  simp only [verify, bind_eq_ok, ensure_eq_ok] at h
  obtain ⟨_, -, _, hround, -⟩ := h
  exact hround

theorem VoteData.verify_of {data : VoteData} (hepoch : data.parent.epoch = data.proposed.epoch)
    (hround : data.parent.round < data.proposed.round)
    (htime : data.parent.timestampUsecs ≤ data.proposed.timestampUsecs)
    (hversion : data.parent.version ≤ data.proposed.version) : data.verify = .ok () := by
  simp only [verify, bind_eq_ok, ensure_eq_ok]
  exact ⟨(), hepoch, (), hround, (), htime, hversion⟩

variable (C : Crypto)

variable (li : LedgerInfoWithSignatures)

def LedgerInfoWithSignatures.verifySignatures
    (validator : ValidatorVerifier) : Except VerifyError Unit :=
  validator.batchVerifyAggregatedSignatures C (.ledgerInfo li.ledgerInfo) li.signatures

def LedgerInfoWithSignatures.addSignature
    (author : AccountAddress) (signature : Signature) : LedgerInfoWithSignatures :=
  { li with signatures := li.signatures.insertIfNew author signature }

def LedgerInfoWithSignatures.QuorumSigned (validator : ValidatorVerifier) : Prop :=
  validator.QuorumSigned C (.ledgerInfo li.ledgerInfo) li.signatures

namespace QuorumCert

variable (qc : QuorumCert)

def certifiedBlock : BlockInfo := qc.voteData.proposed

def parentBlock : BlockInfo := qc.voteData.parent

def ledgerInfo : LedgerInfo := qc.signedLedgerInfo.ledgerInfo

def commitInfo : BlockInfo := qc.ledgerInfo.commitInfo

def endsEpoch : Bool := qc.ledgerInfo.endsEpoch

def verify (validator : ValidatorVerifier) : Except String Unit := do
  ensure (qc.ledgerInfo.consensusDataHash = qc.voteData.hash C)
    "Quorum Cert's hash mismatch LedgerInfo"
  if qc.certifiedBlock.round = 0 then do
    -- the certificate of the genesis block carries no signatures
    ensure (qc.parentBlock = qc.certifiedBlock)
      "Genesis QC has inconsistent parent block with certified block"
    ensure (qc.certifiedBlock = qc.commitInfo)
      "Genesis QC has inconsistent commit block with certified block"
    ensure (qc.signedLedgerInfo.signatures.isEmpty = true)
      "Genesis QC should not carry signatures"
  else do
    mapErr (fun _ => "Fail to verify QuorumCert")
      (qc.signedLedgerInfo.verifySignatures C validator)
    qc.voteData.verify

variable (li : LedgerInfo) (genesisId : HashValue)

/-- The `BlockInfo` that the certificate of an epoch's genesis block names. -/
def genesisBlockInfo : BlockInfo where
  epoch := li.epoch + 1
  round := 0
  id := genesisId
  executedStateId := li.commitInfo.executedStateId
  version := li.version
  timestampUsecs := li.commitInfo.timestampUsecs
  nextEpochState := none

/-- `certificate_for_genesis_from_ledger_info`; no result when the next epoch overflows. -/
def certificateForGenesisFromLedgerInfo : Option QuorumCert :=
  if li.epoch + 1 < u64Bound then
    let ancestor := genesisBlockInfo li genesisId
    let voteData : VoteData := { proposed := ancestor, parent := ancestor }
    some {
      voteData := voteData
      signedLedgerInfo := {
        ledgerInfo := { commitInfo := ancestor, consensusDataHash := voteData.hash C }
        signatures := ∅ } }
  else
    none

/-- What `verify` establishes: the ledger info names this vote data, and the certificate either
has the shape of a genesis certificate or is signed by a quorum. -/
structure Verified (qc : QuorumCert) (validator : ValidatorVerifier) : Prop where
  hash_eq : qc.ledgerInfo.consensusDataHash = qc.voteData.hash C
  genesis : qc.certifiedBlock.round = 0 →
    qc.parentBlock = qc.certifiedBlock ∧ qc.certifiedBlock = qc.commitInfo ∧
      qc.signedLedgerInfo.signatures = ∅
  signed : qc.certifiedBlock.round ≠ 0 → qc.signedLedgerInfo.QuorumSigned C validator
  round_lt : qc.certifiedBlock.round ≠ 0 → qc.parentBlock.round < qc.certifiedBlock.round

variable {C} {qc : QuorumCert} {validator : ValidatorVerifier}

theorem verify_sound {u : Unit} (h : qc.verify C validator = .ok u) : qc.Verified C validator := by
  simp only [verify, bind_eq_ok, ensure_eq_ok] at h
  obtain ⟨_, hhash, h⟩ := h
  by_cases hround : qc.certifiedBlock.round = 0
  · simp only [hround, if_true, bind_eq_ok, ensure_eq_ok, Std.ExtTreeMap.isEmpty_iff] at h
    obtain ⟨_, hparent, _, hcommit, hempty⟩ := h
    exact ⟨hhash, fun _ => ⟨hparent, hcommit, hempty⟩, fun hne => absurd hround hne,
      fun hne => absurd hround hne⟩
  · simp only [hround, if_false, bind_eq_ok, mapErr_eq_ok] at h
    obtain ⟨_, hsigned, hdata⟩ := h
    exact ⟨hhash, fun hzero => absurd hzero hround,
      fun _ => batchVerifyAggregatedSignatures_sound hsigned,
      fun _ => verify_round_lt hdata⟩

theorem verify_of_genesis (hhash : qc.ledgerInfo.consensusDataHash = qc.voteData.hash C)
    (hround : qc.certifiedBlock.round = 0) (hparent : qc.parentBlock = qc.certifiedBlock)
    (hcommit : qc.certifiedBlock = qc.commitInfo) (hempty : qc.signedLedgerInfo.signatures = ∅) :
    qc.verify C validator = .ok () := by
  simp only [verify, bind_eq_ok, ensure_eq_ok, hround, if_true]
  exact ⟨(), hhash, (), hparent, (), hcommit, Std.ExtTreeMap.isEmpty_iff.mpr hempty⟩

theorem verify_of_signed (hv : validator.NoOverflow)
    (hhash : qc.ledgerInfo.consensusDataHash = qc.voteData.hash C)
    (hround : qc.certifiedBlock.round ≠ 0) (hsigned : qc.signedLedgerInfo.QuorumSigned C validator)
    (hdata : qc.voteData.verify = .ok ()) : qc.verify C validator = .ok () := by
  simp only [verify, bind_eq_ok, ensure_eq_ok, hround, if_false, mapErr_eq_ok]
  exact ⟨(), hhash, (), batchVerifyAggregatedSignatures_complete hv hsigned, hdata⟩

end QuorumCert

/-! ## Blocks -/

namespace BlockData

variable (data : BlockData)

def author : Option Author :=
  match data.blockType with
  | .proposal _ author => some author
  | _ => none

def payload : Option Payload :=
  match data.blockType with
  | .proposal payload _ => some payload
  | _ => none

def isGenesisBlock : Bool := data.blockType == .genesis

def isNilBlock : Bool := data.blockType == .nilBlock

def parentId : HashValue := data.quorumCert.certifiedBlock.id

/-- `new_genesis_from_ledger_info`; no result when the assertion that the ledger info ends an
epoch fails. -/
def newGenesisFromLedgerInfo (li : LedgerInfo) : Option BlockData :=
  if li.endsEpoch then
    let ancestor : BlockInfo := {
      epoch := li.epoch
      round := 0
      id := HashValue.zero
      executedStateId := li.commitInfo.executedStateId
      version := li.version
      timestampUsecs := li.commitInfo.timestampUsecs
      nextEpochState := none }
    some {
      epoch := (li.epoch + 1) % u64Bound
      round := 0
      timestampUsecs := li.commitInfo.timestampUsecs
      quorumCert := {
        voteData := { proposed := ancestor, parent := ancestor }
        signedLedgerInfo := {
          ledgerInfo := { commitInfo := ancestor, consensusDataHash := HashValue.zero }
          signatures := ∅ } }
      blockType := .genesis }
  else
    none

end BlockData

namespace Block

variable (block : Block)

def epoch : Nat := block.blockData.epoch

def round : Nat := block.blockData.round

def timestampUsecs : Nat := block.blockData.timestampUsecs

def quorumCert : QuorumCert := block.blockData.quorumCert

def parentId : HashValue := block.blockData.parentId

def genBlockInfo (executedStateId : HashValue) (version : Nat)
    (nextEpochState : Option EpochState) : BlockInfo where
  epoch := block.epoch
  round := block.round
  id := block.id C
  executedStateId := executedStateId
  version := version
  timestampUsecs := block.timestampUsecs
  nextEpochState := nextEpochState

def validateSignature (validator : ValidatorVerifier) : Except String Unit :=
  match block.blockData.blockType with
  | .genesis => .error "We should not accept genesis from others"
  | .nilBlock => block.quorumCert.verify C validator
  | .proposal _ author => do
    let signature ← okOr block.signature "Missing signature in Proposal"
    mapErr VerifyError.toString
      (validator.verify C author (.blockData block.blockData) signature)
    block.quorumCert.verify C validator

def timebound : Nat := 300000000

/-- `verify_well_formed`, with the clock reading as an argument. -/
def verifyWellFormed (block : Block) (now : Nat) : Except String Unit := do
  ensure (block.blockData.isGenesisBlock = false) "We must not accept genesis from others"
  let parent := block.quorumCert.certifiedBlock
  ensure (parent.round < block.round) "Block must have a greater round than parent's block"
  ensure (parent.epoch = block.epoch) "block's parent should be in the same epoch"
  ensure (parent.hasReconfiguration = true →
      (block.blockData.payload.all List.isEmpty) = true)
    "Reconfiguration suffix should not carry payload"
  if block.blockData.isNilBlock || parent.hasReconfiguration then
    ensure (block.timestampUsecs = parent.timestampUsecs)
      "Nil/reconfig suffix block must have same timestamp as parent"
  else do
    ensure (parent.timestampUsecs < block.timestampUsecs)
      "Blocks must have strictly increasing timestamps"
    ensure (block.timestampUsecs ≤ min (now + timebound) (u64Bound - 1))
      "Blocks must not be too far in the future"
  ensure (block.quorumCert.endsEpoch = false)
    "Block cannot be proposed in an epoch that has ended"

theorem verifyWellFormed_spec {block : Block} {now u} (h : block.verifyWellFormed now = .ok u) :
    block.quorumCert.certifiedBlock.round < block.round ∧
      block.quorumCert.certifiedBlock.epoch = block.epoch := by
  simp only [verifyWellFormed, bind_eq_ok, ensure_eq_ok] at h
  obtain ⟨_, -, _, hround, _, hepoch, -⟩ := h
  exact ⟨hround, hepoch⟩

end Block

/-! ## Timeouts -/

namespace TwoChainTimeout

def hqcRound (timeout : TwoChainTimeout) : Nat := timeout.quorumCert.certifiedBlock.round

def signingFormat (timeout : TwoChainTimeout) : TimeoutSigningRepr where
  epoch := timeout.epoch
  round := timeout.round
  hqcRound := timeout.hqcRound

end TwoChainTimeout

namespace TwoChainTimeoutCertificate

variable (tc : TwoChainTimeoutCertificate)

def epoch : Nat := tc.timeout.epoch

def round : Nat := tc.timeout.round

def highestHqcRound : Nat := tc.timeout.hqcRound

def signedRepr (qcRound : Nat) : TimeoutSigningRepr where
  epoch := tc.epoch
  round := tc.round
  hqcRound := qcRound

/-- The loop of `verify` over the signatures; it returns the highest signed round. -/
def verifySignatures (tc : TwoChainTimeoutCertificate) (validators : ValidatorVerifier) :
    List (Author × Nat × Signature) → Nat → Except String Nat
  | [], signedRound => .ok signedRound
  | (author, qcRound, signature) :: rest, signedRound => do
    mapErr (fun _ => s!"Failed to verify {author}'s TimeoutSigningRepr")
      (validators.verify C author (.timeoutSigningRepr (tc.signedRepr qcRound)) signature)
    tc.verifySignatures validators rest (max signedRound qcRound)

def verify (tc : TwoChainTimeoutCertificate) (validators : ValidatorVerifier) :
    Except String Unit := do
  let hqcRound := tc.timeout.hqcRound
  ensure (hqcRound < tc.timeout.round) "Timeout round should be larger than the QC round"
  tc.timeout.quorumCert.verify C validators
  mapErr VerifyError.toString (validators.checkVotingPower tc.signatures.keys)
  let signedRound ← tc.verifySignatures C validators tc.signatures.toList 0
  ensure (hqcRound = signedRound)
    s!"Inconsistent hqc round, qc has round {hqcRound}, highest signed round {signedRound}"

/-- What `verify` establishes: a quorum signed timeouts of the certificate's epoch and round,
none of them with a higher certificate than the one it carries. -/
structure Verified (tc : TwoChainTimeoutCertificate) (validators : ValidatorVerifier) :
    Prop where
  hqc_lt : tc.highestHqcRound < tc.round
  qc : tc.timeout.quorumCert.Verified C validators
  quorum : validators.HasQuorum (authorsOf tc.signatures)
  signed : ∀ (author : Author) (qcRound : Nat) (signature : Signature),
    tc.signatures[author]? = some (qcRound, signature) →
      validators.Signed C (.timeoutSigningRepr (tc.signedRepr qcRound)) author signature
  signed_le : ∀ (author : Author) (qcRound : Nat) (signature : Signature),
    tc.signatures[author]? = some (qcRound, signature) → qcRound ≤ tc.highestHqcRound

variable {C} {tc : TwoChainTimeoutCertificate} {validators : ValidatorVerifier}

theorem verifySignatures_spec {pairs start signedRound}
    (h : tc.verifySignatures C validators pairs start = .ok signedRound) :
    start ≤ signedRound ∧ ∀ author qcRound signature, (author, qcRound, signature) ∈ pairs →
      validators.Signed C (.timeoutSigningRepr (tc.signedRepr qcRound)) author signature ∧
        qcRound ≤ signedRound := by
  induction pairs generalizing start with
  | nil =>
    simp only [verifySignatures, Except.ok.injEq] at h
    simp [h]
  | cons _ _ ih =>
    simp only [verifySignatures, bind_eq_ok, mapErr_eq_ok, verify_eq_ok] at h
    obtain ⟨_, hsigned, hrest⟩ := h
    obtain ⟨hmax, hall⟩ := ih hrest
    refine ⟨(le_max_left _ _).trans hmax, ?_⟩
    intro _ _ _ hmem
    rcases List.mem_cons.mp hmem with heq | hmem
    · cases heq
      exact ⟨hsigned, (le_max_right _ _).trans hmax⟩
    · exact hall _ _ _ hmem

theorem verify_sound {u} (h : tc.verify C validators = .ok u) : tc.Verified C validators := by
  simp only [verify, bind_eq_ok, ensure_eq_ok, mapErr_eq_ok] at h
  obtain ⟨_, hlt, _, hqc, _, hpower, signedRound, hsigned, hround⟩ := h
  obtain ⟨-, hall⟩ := verifySignatures_spec hsigned
  have hmem : ∀ author qcRound signature,
      tc.signatures[author]? = some (qcRound, signature) →
        validators.Signed C (.timeoutSigningRepr (tc.signedRepr qcRound)) author signature ∧
          qcRound ≤ signedRound := fun author qcRound signature hget =>
    hall _ _ _ (Std.ExtTreeMap.mem_toList_iff_getElem?_eq_some.mpr hget)
  exact {
    hqc_lt := hlt
    qc := QuorumCert.verify_sound hqc
    quorum := checkVotingPower_sound Std.ExtTreeMap.nodup_keys hpower
    signed := fun author qcRound signature hget => (hmem author qcRound signature hget).1
    signed_le := fun author qcRound signature hget =>
      (hmem author qcRound signature hget).2.trans_eq hround.symm }

end TwoChainTimeoutCertificate

namespace TimeoutCertificate

def new (timeout : Timeout) : TimeoutCertificate where
  timeout := timeout
  signatures := ∅

def verify (tc : TimeoutCertificate) (validator : ValidatorVerifier) : Except String Unit :=
  mapErr (fun _ => "Failed to verify TimeoutCertificate")
    (validator.verifyAggregatedStructSignature C (.timeout tc.timeout) tc.signatures)

def addSignature (tc : TimeoutCertificate) (author : Author) (signature : Signature) :
    TimeoutCertificate :=
  { tc with signatures := tc.signatures.insertIfNew author signature }

variable {C} in
theorem verify_of_signed {tc : TimeoutCertificate} {validator} (hv : validator.NoOverflow)
    (hsigned : validator.QuorumSigned C (.timeout tc.timeout) tc.signatures) :
    tc.verify C validator = .ok () := by
  rw [verify, mapErr_eq_ok]
  exact verifyAggregatedStructSignature_complete hv hsigned

end TimeoutCertificate

/-! ## Votes -/

namespace Vote

def newWithSignature (voteData : VoteData) (author : Author) (ledgerInfo : LedgerInfo)
    (signature : Signature) : Vote where
  voteData := voteData
  author := author
  ledgerInfo := ledgerInfo
  signature := signature
  timeoutSignature := none

variable (vote : Vote)

def timeout : Timeout where
  epoch := vote.voteData.proposed.epoch
  round := vote.voteData.proposed.round

def epoch : Nat := vote.voteData.proposed.epoch

def round : Nat := vote.voteData.proposed.round

def isTimeout : Bool := vote.timeoutSignature.isSome

def verify (validator : ValidatorVerifier) : Except String Unit := do
  ensure (vote.ledgerInfo.consensusDataHash = vote.voteData.hash C)
    "Vote's hash mismatch with LedgerInfo"
  mapErr (fun _ => "Failed to verify Vote")
    (validator.verify C vote.author (.ledgerInfo vote.ledgerInfo) vote.signature)
  match vote.timeoutSignature with
  | some timeoutSignature =>
    mapErr (fun _ => "Failed to verify Timeout Vote")
      (validator.verify C vote.author (.timeout vote.timeout) timeoutSignature)
  | none => pure ()
  vote.voteData.verify

end Vote

namespace VoteProposal

def voteDataOrderingOnly (proposal : VoteProposal) : VoteData where
  proposed := proposal.block.genBlockInfo C accumulatorPlaceholderHash 0 proposal.nextEpochState
  parent := proposal.block.quorumCert.certifiedBlock

def voteDataWithExtensionProof (proposal : VoteProposal) (newTree : InMemoryAccumulator) :
    VoteData where
  proposed :=
    proposal.block.genBlockInfo C newTree.rootHash newTree.version proposal.nextEpochState
  parent := proposal.block.quorumCert.certifiedBlock

end VoteProposal

end Loki.Diem
