import Loki.Diem.Agreement.Votes
import Loki.Diem.IdealCrypto

/-!
# A validator that is a quorum by itself

Where one validator has three quarters of the power every vote of it is a certificate, and it can go
on voting for empty blocks.  The runs that arise in this way show that the protocols commit, and
where they can go wrong.
-/

namespace Loki.Diem

open Loki.Foundation SafetyRules BlockData ValidatorVerifier Option Crypto Call

/-! ## The start of an epoch -/

section

variable (state : EpochState) (key : PrivateKey)

def Network.entering (state : EpochState) (key : PrivateKey) (past : Sent) : Network where
  nodes author := SafetyRules.entering state author key
  sent := past

theorem Network.entering_start (past : Sent)
    (honest : Finset Author) : (entering state key past).Start honest state where
  coherent := fun _ _ d hd => hd
  inEpoch := by
    refine fun _ _ => ⟨fun s hs => (some.inj hs).symm, fun s d _ hd => ?_, fun d hd => ?_⟩
    · rw [← some.inj hd]
      rfl
    · rw [← some.inj hd]
      exact le_rfl
  stored := fun _ _ d hd => .inr (some.inj hd).symm

def EpochState.boundary : LedgerInfo where
  commitInfo := { BlockInfo.empty with
    epoch := state.epoch - 1
    nextEpochState := some state }
  consensusDataHash := HashValue.zero

end

def ValidatorVerifier.major : ValidatorVerifier where
  addressToValidatorInfo :=
    ((∅ : BTreeMap AccountAddress ValidatorConsensusInfo).insert 1 ⟨7, 3⟩).insert 2 ⟨8, 1⟩
  quorumVotingPower := 3
  totalVotingPower := 4

def EpochState.major (epoch : Nat) : EpochState where
  epoch := epoch
  verifier := .major

theorem EpochState.major_trusted (epoch : Nat) : Trusted .ideal (major epoch) {1} :=
  have h : 3 * ValidatorVerifier.major.power (ValidatorVerifier.major.authors \ {1}) <
    ValidatorVerifier.major.power ValidatorVerifier.major.authors := by decide
  have hV : ValidatorVerifier.major.WellFormed := ⟨by decide, by decide⟩
  ⟨ideal_collisionFree, hV, h⟩

/-! ## Certificates -/

theorem getElem?_singleton {β author a value value'}
    (h : ((∅ : BTreeMap Author β).insert author value)[a]? = some value') :
    a = author ∧ value' = value := by
  rw [Std.ExtTreeMap.getElem?_insert] at h
  split at h
  · next heq => exact ⟨(Std.LawfulEqCmp.eq_of_compare heq).symm, (some.inj h).symm⟩
  · simp at h

theorem major_hasQuorum : major.HasQuorum {1} := ⟨by decide, by decide⟩

theorem major_signed (message) : major.Signed ideal message 1 (ideal.sign 7 message) :=
  ⟨7, rfl, ideal_verify_sign 7 message⟩

/-! ## Empty blocks -/

noncomputable def QuorumCert.nilVoteData (qc : QuorumCert) (round : Nat) : VoteData :=
  (qc.nilProposal round).voteProposal.voteDataOrderingOnly ideal

/-- The vote of the major validator for an empty block over the certificate. -/
noncomputable def QuorumCert.nilVote (qc : QuorumCert) (round : Nat) (commitInfo : BlockInfo) :
    Vote :=
  let li : LedgerInfo :=
    { commitInfo := commitInfo, consensusDataHash := (qc.nilVoteData round).hash ideal }
  .newWithSignature (qc.nilVoteData round) 1 li (ideal.sign 7 (.ledgerInfo li))

/-- The chain goes on with every child of a greater round. -/
def Extensible (chain : BlockData → Prop) : Prop :=
  ∀ parent block : BlockData, chain parent → block.parentId = parent.hash ideal →
    parent.round < block.round → chain block

variable (epoch : Nat)

/-- A certificate of the epoch over which empty blocks of the chain can be proposed. -/
structure Tip (chain : BlockData → Prop) (sent : Sent) (qc : QuorumCert) : Prop where
  verify : qc.verify ideal major = .ok ()
  epoch_eq : qc.certifiedBlock.epoch = epoch
  version : qc.certifiedBlock.version = 0
  continues : qc.commitInfo.nextEpochState = none
  extensible : Extensible chain
  next : ∀ round, qc.certifiedBlock.round < round → chain (qc.nilBlock round).blockData
  unforged : Unforged ideal major {1} sent qc.signedLedgerInfo

variable (data : SafetyData)

/-- The major validator, with the safety data that it has come to. -/
def SafetyRules.voting : SafetyRules :=
  let rules := entering (.major epoch) 1 7
  { rules with persistentStorage := {
      rules.persistentStorage with
      cachedSafetyData := some data
      internalStore := { rules.persistentStorage.internalStore with safetyData := some data } } }

theorem exec_getSigner_voting :
    getSigner.exec (voting epoch data) = (.ok (.signer 1 7), voting epoch data) := rfl

theorem exec_safetyData_voting :
    (onStorage PersistentSafetyStorage.safetyData).exec (voting epoch data) =
      (.ok data, voting epoch data) := rfl

/-- In one step the major validator votes for an empty block over the certificate. -/
def Network.Votes {epoch : Nat} (net : Network) (conduct : Conduct (.major epoch))
    (chain : BlockData → Prop) (qc : QuorumCert) (round : Nat) (commitInfo : BlockInfo)
    (data : SafetyData) : Prop :=
  ∃ net', net.Step ideal {1} conduct net' ∧
    net'.nodes 1 = voting epoch { data with lastVote := some (qc.nilVote round commitInfo) } ∧
    Tip epoch chain net'.sent (qc.nilVote round commitInfo).certificate ∧
    ∃ entry, net'.sent = entry :: net.sent

namespace Tip

variable {epoch round : Nat} {genesis : BlockData} {chain : BlockData → Prop} {sent : Sent}
  {qc : QuorumCert} {data : SafetyData}

theorem mono (h : Tip epoch chain sent qc) (entry) : Tip epoch chain (entry :: sent) qc :=
  { h with unforged := h.unforged.mono entry }

theorem quorumCommits (h : Tip epoch chain sent qc) (hround : qc.certifiedBlock.round ≠ 0)
    (hepoch : qc.commitInfo.epoch ≠ 0) :
    QuorumCommits ideal major {1} sent qc.signedLedgerInfo where
  signed := (QuorumCert.verify_sound h.verify).signed hround
  unforged := h.unforged
  commits heq := hepoch (congrArg BlockInfo.epoch heq)

theorem of_genesis (boundary) (hgenesis : newGenesisFromLedgerInfo boundary = some genesis)
    (hqc : QuorumCert.certificateForGenesisFromLedgerInfo ideal boundary (genesis.hash ideal) =
      some qc) (hepoch : boundary.epoch + 1 = epoch) (hversion : boundary.version = 0)
    (hchain : chain genesis) (hextensible : Extensible chain) : Tip epoch chain sent qc := by
  unfold QuorumCert.certificateForGenesisFromLedgerInfo at hqc
  split at hqc
  · cases hqc
    exact {
      verify := QuorumCert.verify_of_genesis rfl rfl rfl rfl rfl
      epoch_eq := hepoch
      version := hversion
      continues := rfl
      extensible := hextensible
      next := fun _ hround => hextensible _ _ hchain rfl
        ((newGenesisFromLedgerInfo_round hgenesis).trans_lt hround)
      unforged := fun _ _ _ hget => absurd hget (by simp) }
  · cases hqc

theorem exec_verifyProposal (h : Tip epoch chain sent qc)
    (hround : qc.certifiedBlock.round < round) (hepoch : data.epoch = epoch) :
    (verifyProposal ideal 0 (qc.nilProposal round)).exec (voting epoch data) =
      (.ok (qc.nilVoteData round), voting epoch data) := by
  have hends : qc.endsEpoch = false := by
    have hcommit : qc.ledgerInfo.commitInfo.nextEpochState = none := h.continues
    simp [QuorumCert.endsEpoch, LedgerInfo.endsEpoch, LedgerInfo.nextEpochState, hcommit]
  have hwellFormed : (qc.nilBlock round).verifyWellFormed 0 = .ok () := by
    simp [Block.verifyWellFormed, QuorumCert.nilBlock, QuorumCert.nilProposal, isGenesisBlock,
      isNilBlock, payload, Block.quorumCert, Block.round, Block.epoch, Block.timestampUsecs, ensure,
      hround, hends]
  have hsignature : (qc.nilBlock round).validateSignature ideal major = .ok () := h.verify
  have hqc : (qc.nilBlock round).quorumCert.verify ideal major = .ok () := h.verify
  have hsame : (qc.nilBlock round).epoch = data.epoch := h.epoch_eq.trans hepoch.symm
  simp [verifyProposal, verifyExecutionSignature, verifyQc, getEpochState, exec_bind, onStorage,
    PersistentSafetyStorage.safetyData, SafetyData.verifyEpoch, voting, entering, EpochState.major,
    okOr, mapErr, ensure, hwellFormed, hsignature, hqc, hsame, QuorumCert.nilVoteData]

/-- The vote for the next block is a certificate that can be extended in turn. -/
theorem exists_step {conduct : Conduct (.major epoch)} {net : Network} {commitInfo} (op)
    (h : Tip epoch chain net.sent qc) (hround : qc.certifiedBlock.round < round)
    (hcontinues : commitInfo.nextEpochState = none) (hallowed : conduct.Allows net.sent op)
    (hperform : ((net.nodes 1).withOutcomes []).perform ideal op =
      (.vote (qc.nilVote round commitInfo),
        voting epoch { data with lastVote := some (qc.nilVote round commitInfo) })) :
    net.Votes conduct chain qc round commitInfo data := by
  refine ⟨_, .call (Finset.mem_singleton_self 1) op [] hallowed, ?_, ?_, _, rfl⟩
  · simp [Network.call, event, hperform]
  · simp only [Network.call, event, hperform]
    constructor
    case verify =>
      refine QuorumCert.verify_of_signed (EpochState.major_trusted epoch).wellFormed.noOverflow rfl
        (Nat.ne_zero_of_lt hround) ⟨major_hasQuorum, fun a _ hget => ?_⟩
        (VoteData.verify_of rfl hround le_rfl h.version.le)
      obtain ⟨rfl, rfl⟩ := getElem?_singleton hget
      exact major_signed _
    case unforged =>
      intro a _ _ hget _
      obtain ⟨rfl, -⟩ := getElem?_singleton hget
      exact ⟨_, List.mem_cons_self, rfl⟩
    case extensible => exact h.extensible
    case next => exact fun _ hlt => h.extensible _ _ (h.next round hround) rfl hlt
    case epoch_eq => exact h.epoch_eq
    case continues => exact hcontinues
    all_goals rfl

end Tip

end Loki.Diem
