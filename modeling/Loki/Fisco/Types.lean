import Mathlib.Algebra.Order.Ring.Nat

/-!
# Messages of FISCO PBFT

Proposals and messages as they stand after decoding.  The signature of a `PBFTMessage` covers the
fields of its base message.  The signature of a view change or a new view covers a hash that the
message carries itself, as soon as it carries a signature.
-/

namespace Loki.Fisco

abbrev OrderedMap (K V : Type) [Ord K] := Std.ExtTreeMap K V

abbrev HashType := Nat
abbrev NodeID := Nat
abbrev Signature := Nat

/-- `IndexType`, `ViewType` and weights are `uint64_t`. -/
def uint64 : Nat := 2 ^ 64

def maxView : Nat := (uint64 - 1) / 2

def nonConsensusNode : Nat := uint64 - 1

inductive PacketType where
  | prePreparePacket
  | preparePacket
  | commitPacket
  | viewChangePacket
  | newViewPacket
  | committedProposalRequest
  | committedProposalResponse
  | preparedProposalRequest
  | preparedProposalResponse
  | checkPoint
  | recoverRequest
  | recoverResponse
  deriving DecidableEq, Repr

/-- What is read of the block that the bytes of a proposal encode. -/
structure BlockHeader where
  number : Nat
  hash : HashType
  deriving DecidableEq, Repr

/-- `data` is `none` for a proposal without bytes. -/
structure PBFTProposal where
  index : Nat
  hash : HashType
  sealerId : Nat := 0
  systemProposal : Bool := false
  data : Option BlockHeader := none
  signature : Option Signature := none
  signatureProof : List (Nat × Signature) := []
  deriving DecidableEq, Repr

structure BaseMessage where
  view : Nat
  index : Nat
  hash : HashType
  generatedFrom : Nat
  deriving DecidableEq, Repr

structure PBFTMessage extends BaseMessage where
  packetType : PacketType
  consensusProposal : Option PBFTProposal := none
  proposals : List PBFTProposal := []
  signatureData : Signature := 0
  deriving DecidableEq, Repr

/-- The payload of a view change: everything but its own signature. -/
structure ViewChangePayload extends BaseMessage where
  committedProposal : PBFTProposal
  preparedProposals : List PBFTMessage
  deriving DecidableEq, Repr

structure ViewChangeMsg extends ViewChangePayload where
  signatureDataHash : HashType := 0
  signatureData : Option Signature := none
  deriving DecidableEq, Repr

structure NewViewPayload extends BaseMessage where
  viewChangeMsgList : List ViewChangeMsg
  prePrepareList : List PBFTMessage
  deriving DecidableEq, Repr

structure NewViewMsg extends NewViewPayload where
  signatureDataHash : HashType := 0
  signatureData : Option Signature := none
  deriving DecidableEq, Repr

/-- A decoded packet, or one that is handed to the front service. -/
inductive Message where
  | pbft (msg : PBFTMessage)
  | viewChange (msg : ViewChangeMsg)
  | newView (msg : NewViewMsg)
  deriving DecidableEq, Repr

inductive Hashed where
  | hashFields (msg : BaseMessage)
  | viewChange (payLoad : ViewChangePayload)
  | newView (payLoad : NewViewPayload)
  deriving DecidableEq, Repr

structure CryptoSuite where
  hash : Hashed → HashType
  sign : NodeID → HashType → Signature
  verify : NodeID → HashType → Signature → Bool

structure ConsensusNode where
  nodeID : NodeID
  weight : Nat
  deriving DecidableEq, Repr

/-- The ledger's answer to a commit or to a sync.  An empty node list makes `setConsensusNodeList`
throw, and a period of zero divides by zero. -/
structure LedgerConfig where
  blockNumber : Nat
  hash : HashType
  consensusNodeList : List ConsensusNode
  leaderSwitchPeriod : Nat
  consensusNodeList_ne_nil : consensusNodeList ≠ []
  leaderSwitchPeriod_pos : 0 < leaderSwitchPeriod

namespace PBFTMessage

variable (suite : CryptoSuite)

def verifySignature (pubKey : NodeID) (msg : PBFTMessage) : Bool :=
  suite.verify pubKey (suite.hash (.hashFields msg.toBaseMessage)) msg.signatureData

/-- `PBFTMessage::encode` signs the fields of the base message. -/
def encode (keyPair : NodeID) (msg : PBFTMessage) : PBFTMessage :=
  { msg with signatureData := suite.sign keyPair (suite.hash (.hashFields msg.toBaseMessage)) }

/-- `PBFTMessageFactory::populateFrom` for a vote: the signed copy of the proposal has no data. -/
def populateVote (keyPair : NodeID) (packetType : PacketType)
    (view generatedFrom : Nat) (proposal : PBFTProposal) : PBFTMessage where
  view := view
  index := proposal.index
  hash := proposal.hash
  generatedFrom := generatedFrom
  packetType := packetType
  consensusProposal := some {
    index := proposal.index
    hash := proposal.hash
    sealerId := proposal.sealerId
    signature := some (suite.sign keyPair proposal.hash) }

/-- `PBFTMessageFactory::populateFrom` for a pre-prepare. -/
def populatePrePrepare (proposal : PBFTProposal) (view generatedFrom : Nat) : PBFTMessage where
  view := view
  index := proposal.index
  hash := proposal.hash
  generatedFrom := generatedFrom
  packetType := .prePreparePacket
  consensusProposal := some proposal

end PBFTMessage

namespace PBFTProposal

/-- `PBFTMessageFactory::populateFrom(_proposal, false)`. -/
def withoutData (proposal : PBFTProposal) : PBFTProposal where
  index := proposal.index
  hash := proposal.hash
  sealerId := proposal.sealerId
  signatureProof := proposal.signatureProof

end PBFTProposal

namespace ViewChangeMsg

variable (suite : CryptoSuite)

def verifySignature (pubKey : NodeID) (msg : ViewChangeMsg) : Bool :=
  match msg.signatureData with
  | none => false
  | some signature => suite.verify pubKey msg.signatureDataHash signature

/-- What `PBFTCodec::encode` leaves in the message object. -/
def encode (keyPair : NodeID) (msg : ViewChangeMsg) : ViewChangeMsg :=
  match msg.signatureData with
  | some _ => msg
  | none =>
    let hash := suite.hash (.viewChange msg.toViewChangePayload)
    { msg with signatureDataHash := hash, signatureData := some (suite.sign keyPair hash) }

/-- `PBFTCodec::decode` fills in the packet's signature and the hash of the payload only where the
payload has no signature of its own. -/
def decode (packetSignature : Signature) (msg : ViewChangeMsg) : ViewChangeMsg :=
  match msg.signatureData with
  | some _ => msg
  | none =>
    { msg with
      signatureDataHash := suite.hash (.viewChange msg.toViewChangePayload)
      signatureData := some packetSignature }

end ViewChangeMsg

namespace NewViewMsg

def verifySignature (suite : CryptoSuite) (pubKey : NodeID) (msg : NewViewMsg) : Bool :=
  match msg.signatureData with
  | none => false
  | some signature => suite.verify pubKey msg.signatureDataHash signature

def encode (suite : CryptoSuite) (keyPair : NodeID) (msg : NewViewMsg) : NewViewMsg :=
  match msg.signatureData with
  | some _ => msg
  | none =>
    let hash := suite.hash (.newView msg.toNewViewPayload)
    { msg with signatureDataHash := hash, signatureData := some (suite.sign keyPair hash) }

end NewViewMsg

end Loki.Fisco
