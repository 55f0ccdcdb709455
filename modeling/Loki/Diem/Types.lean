import Mathlib.Algebra.Order.Ring.Nat

/-!
# Data model of the Diem validator

The types that cross the boundary between the consensus core, the safety rules and the light
client.  Rounds, epochs, versions and timestamps are `u64` in the source; arithmetic on them
that can overflow says so where it is done.

Hashes, keys, addresses and signatures are opaque.  A value that the source hashes is a
constructor of `Hashed`, a value that it signs is a constructor of `Message`, so that the
per-type hasher seeds of the source become the distinctness of constructors.
-/

namespace Loki.Diem

/-- `BTreeMap`: a finite map, iterated in the order of its keys. -/
abbrev BTreeMap (K V : Type) [Ord K] := Std.ExtTreeMap K V compare

abbrev HashValue := Nat
abbrev AccountAddress := Nat
abbrev Author := AccountAddress
abbrev PublicKey := Nat
abbrev PrivateKey := Nat
abbrev Signature := Nat

/-- One more than the largest `u64`. -/
def u64Bound : Nat := 2 ^ 64

/-- `HashValue::zero()`. -/
def HashValue.zero : HashValue := 0

/-- The bytes of `"ACCUMULATOR_PLACEHOLDER_HASH"`, padded with zeros to 32 bytes. -/
def accumulatorPlaceholderHash : HashValue :=
  29519178627997304637618519030581892818633183099092048000229796302419826573312

structure ValidatorConsensusInfo where
  publicKey : PublicKey
  votingPower : Nat
  deriving DecidableEq

structure ValidatorVerifier where
  addressToValidatorInfo : BTreeMap AccountAddress ValidatorConsensusInfo
  quorumVotingPower : Nat
  totalVotingPower : Nat
  deriving DecidableEq

structure EpochState where
  epoch : Nat
  verifier : ValidatorVerifier
  deriving DecidableEq

structure BlockInfo where
  epoch : Nat
  round : Nat
  id : HashValue
  executedStateId : HashValue
  version : Nat
  timestampUsecs : Nat
  nextEpochState : Option EpochState
  deriving DecidableEq

/-- `BlockInfo::empty()`, the commit info of a ledger info that commits nothing. -/
def BlockInfo.empty : BlockInfo where
  epoch := 0
  round := 0
  id := HashValue.zero
  executedStateId := HashValue.zero
  version := 0
  timestampUsecs := 0
  nextEpochState := none

structure LedgerInfo where
  commitInfo : BlockInfo
  consensusDataHash : HashValue
  deriving DecidableEq

structure LedgerInfoWithSignatures where
  ledgerInfo : LedgerInfo
  signatures : BTreeMap AccountAddress Signature
  deriving DecidableEq

structure VoteData where
  proposed : BlockInfo
  parent : BlockInfo
  deriving DecidableEq

structure QuorumCert where
  voteData : VoteData
  signedLedgerInfo : LedgerInfoWithSignatures
  deriving DecidableEq

abbrev SignedTransaction := Nat

abbrev Payload := List SignedTransaction

inductive BlockType where
  | proposal (payload : Payload) (author : Author)
  | nilBlock
  | genesis
  deriving DecidableEq, Repr

structure BlockData where
  epoch : Nat
  round : Nat
  timestampUsecs : Nat
  quorumCert : QuorumCert
  blockType : BlockType
  deriving DecidableEq

/-- A block.  Its `id` is not stored here: every constructor of the source sets it to the hash
of the block data, see `Block.id`. -/
structure Block where
  blockData : BlockData
  signature : Option Signature
  deriving DecidableEq

structure Timeout where
  epoch : Nat
  round : Nat
  deriving DecidableEq, Repr

structure TimeoutCertificate where
  timeout : Timeout
  signatures : BTreeMap AccountAddress Signature
  deriving DecidableEq

/-- A timeout of the two-chain protocol, with the highest certificate its author knows. -/
structure TwoChainTimeout where
  epoch : Nat
  round : Nat
  quorumCert : QuorumCert
  deriving DecidableEq

/-- What a validator signs for a `TwoChainTimeout`. -/
structure TimeoutSigningRepr where
  epoch : Nat
  round : Nat
  hqcRound : Nat
  deriving DecidableEq, Repr

structure TwoChainTimeoutCertificate where
  timeout : TwoChainTimeout
  signatures : BTreeMap Author (Nat × Signature)
  deriving DecidableEq

structure Vote where
  voteData : VoteData
  author : Author
  ledgerInfo : LedgerInfo
  signature : Signature
  timeoutSignature : Option Signature
  deriving DecidableEq

structure AccumulatorExtensionProof where
  frozenSubtreeRoots : List HashValue
  numLeaves : Nat
  leaves : List HashValue
  deriving DecidableEq, Repr

structure VoteProposal where
  accumulatorExtensionProof : AccumulatorExtensionProof
  block : Block
  nextEpochState : Option EpochState
  deriving DecidableEq

structure MaybeSignedVoteProposal where
  voteProposal : VoteProposal
  signature : Option Signature
  deriving DecidableEq

/-- The part of the safety rules' state that must survive a restart. -/
structure SafetyData where
  epoch : Nat
  lastVotedRound : Nat
  preferredRound : Nat
  oneChainRound : Nat
  lastVote : Option Vote
  deriving DecidableEq

structure Waypoint where
  version : Nat
  value : HashValue
  deriving DecidableEq, Repr

structure Ledger2WaypointConverter where
  epoch : Nat
  rootHash : HashValue
  version : Nat
  timestampUsecs : Nat
  nextEpochState : Option EpochState
  deriving DecidableEq

structure EpochChangeProof where
  ledgerInfoWithSigs : List LedgerInfoWithSignatures
  more : Bool
  deriving DecidableEq

abbrev KeptVMStatus := Nat

structure TransactionInfo where
  transactionHash : HashValue
  stateRootHash : HashValue
  eventRootHash : HashValue
  gasUsed : Nat
  status : KeptVMStatus
  deriving DecidableEq, Repr

abbrev ContractEvent := Nat

inductive Hashed where
  | blockData (data : BlockData)
  | voteData (data : VoteData)
  | ledgerInfo (info : LedgerInfo)
  | ledger2Waypoint (converter : Ledger2WaypointConverter)
  | transactionAccumulatorNode (left right : HashValue)
  | eventAccumulatorNode (left right : HashValue)
  | transactionInfo (info : TransactionInfo)
  | contractEvent (event : ContractEvent)

inductive Message where
  | blockData (data : BlockData)
  | ledgerInfo (info : LedgerInfo)
  | timeout (timeout : Timeout)
  | timeoutSigningRepr (repr : TimeoutSigningRepr)
  | voteProposal (proposal : VoteProposal)

structure Crypto where
  hash : Hashed → HashValue
  publicKey : PrivateKey → PublicKey
  sign : PrivateKey → Message → Signature
  verify : PublicKey → Message → Signature → Bool

def Crypto.CollisionFree (C : Crypto) : Prop := Function.Injective C.hash

def Crypto.concrete : Crypto where
  hash _ := 0
  publicKey key := key
  sign key _ := key
  verify key _ signature := key == signature

variable (C : Crypto)

def BlockData.hash (data : BlockData) : HashValue := C.hash (.blockData data)

def VoteData.hash (data : VoteData) : HashValue := C.hash (.voteData data)

def LedgerInfo.hash (info : LedgerInfo) : HashValue := C.hash (.ledgerInfo info)

def Block.id (block : Block) : HashValue := block.blockData.hash C

end Loki.Diem
