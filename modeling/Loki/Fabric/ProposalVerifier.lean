import Loki.Fabric.BlockSequence

/-!
# Verification of BFT proposals

`orderer/consensus/smartbft/verifier.go`.  A follower rebuilds the block of a proposal and compares
it with the last block it has committed.  The decoders of the messages, the policies and the
validation of configurations are parameters.
-/

namespace Loki.Fabric.SmartBFT

open Loki.Foundation Cauthdsl Cluster List

structure Proposal where
  header : Bytes
  payload : Bytes
  metadata : Bytes
  verificationSequence : Int

/-- A block with header, data and metadata, as `ProposalToBlock` makes them. -/
structure ProposedBlock where
  header : BlockHeader
  data : List Bytes
  metadata : List Bytes

structure Envelope where
  payload : Bytes
  signature : Bytes

structure Header where
  channelHeader : Bytes
  signatureHeader : Bytes

structure SignatureHeader where
  creator : Bytes
  nonce : Bytes

structure Request where
  sigHdr : SignatureHeader
  envelope : Envelope
  type : Nat

structure OrdererBlockMetadata where
  lastConfig : Option Nat
  consenterMetadata : Bytes

structure ViewMetadata where
  viewId : Nat
  latestSequence : Nat
  decisionsInView : Nat
  blackList : List Nat
  prevCommitSignatureDigest : Bytes
  unrecognized : Bytes
  deriving DecidableEq, Inhabited

structure RequestInfo where
  clientID : String
  id : String
  deriving DecidableEq

structure ProposalCodec (ConfigEnvelope : Type) extends Codec ConfigEnvelope where
  unmarshalHeader : Bytes → Except String BlockHeader
  unmarshalTuple : Bytes → Except String (Bytes × Bytes)
  unmarshalBlockData : Bytes → Except String (List Bytes)
  unmarshalBlockMetadata : Bytes → Except String (List Bytes)
  unmarshalOrdererBlockMetadata : Bytes → Except String OrdererBlockMetadata
  unmarshalViewMetadata : Bytes → Except String ViewMetadata
  showViewMetadata : ViewMetadata → String
  unmarshalLastConfig : Bytes → Except String Nat
  unmarshalEnvelope : Bytes → Except String Envelope
  unmarshalPayload : Bytes → Except String (Option Header)
  unmarshalSignatureHeader : Bytes → Except String SignatureHeader

/-- The hash is that of the last block: both are set by `BlockCommitted` only.  Numbers are
`uint64`. -/
structure RuntimeConfig {ConfigEnvelope : Type} (C : Codec ConfigEnvelope) where
  lastBlock : BlockHeader
  lastConfigBlock : BlockHeader
  lastHash : Bytes
  hash_eq : lastBlock.hash C = .ok lastHash
  lastConfigBlock_lt : lastConfigBlock.number < 2 ^ 64

def RuntimeConfig.lastCommittedBlockHash {ConfigEnvelope : Type} {C : Codec ConfigEnvelope}
    (rtc : RuntimeConfig C) : String :=
  encodeToString rtc.lastHash

/-- `arrival` is the order in which the validations of the transactions of a block finish. -/
structure Verifier {ConfigEnvelope : Type} (C : ProposalCodec ConfigEnvelope) where
  runtimeConfig : RuntimeConfig C.toCodec
  validateIdentity : Bytes → Except String Unit
  evaluate : SignedData → Except String Unit
  validateConfig : Envelope → Except String Unit
  sequence : Nat
  arrival : List Bytes → List Bytes
  arrival_perm : ∀ data, (arrival data).Perm data

def headerTypeEndorserTransaction : Nat := 3

def headerTypeOrdererTransaction : Nat := 4

/-- `HeaderType_name`. -/
def headerTypeName (type : Nat) : String :=
  ["MESSAGE", "CONFIG", "CONFIG_UPDATE", "ENDORSER_TRANSACTION", "ORDERER_TRANSACTION",
    "DELIVER_SEEK_INFO", "CHAINCODE_PACKAGE", "", "PEER_ADMIN_OPERATION",
    "TOKEN_TRANSACTION"].getD type ""

/-- `errors.Wrap`. -/
def wrap {α : Type} (message : String) (x : Except String α) : Except String α :=
  mapErr (fun e => s!"{message}: {e}") x

variable {ConfigEnvelope : Type} {C : ProposalCodec ConfigEnvelope}

variable (C) in
def proposalToBlock (proposal : Proposal) : Except String ProposedBlock := do
  ensure (proposal.header ≠ []) "proposal header cannot be nil"
  let header ← wrap "bad header" (C.unmarshalHeader proposal.header)
  ensure (proposal.payload ≠ []) "proposal payload cannot be nil"
  let (a, b) ← wrap "bad payload and metadata tuple" (C.unmarshalTuple proposal.payload)
  let data ← wrap "bad payload" (C.unmarshalBlockData a)
  let metadata ← wrap "bad metadata" (C.unmarshalBlockMetadata b)
  return ⟨header, data, metadata⟩

variable (C) in
def verifyHashChain (block : ProposedBlock) (prevHeaderHash : String) : Except String Unit := do
  let thisHdrHashOfPrevHdr := encodeToString block.header.previousHash
  ensure (prevHeaderHash = thisHdrHashOfPrevHdr)
    s!"previous header hash is {thisHdrHashOfPrevHdr} but expected {prevHeaderHash}"
  let dataHash := encodeToString block.header.dataHash
  let actualHashOfData := encodeToString (C.sha256 block.data.flatten)
  ensure (dataHash = actualHashOfData)
    s!"data hash is {dataHash} but expected {actualHashOfData}"

variable (C) in
def isConfigBlock (data : List Bytes) : Bool :=
  match data with
  | [txn] =>
    let type := do
      let payload ← C.getEnvelopeFromBlock txn >>= C.getPayload
      let channelHeader ← okOr payload.channelHeader "no header"
      C.unmarshalChannelHeaderType channelHeader
    match type with
    | .ok type => type = headerTypeConfig
    | .error _ => false
  | _ => false

variable (C) in
def getMetadataFromBlock (block : ProposedBlock) (index : Nat) (name : String) :
    Except String Metadata :=
  wrap s!"error unmarshaling metadata from block at index [{name}]"
    (C.unmarshalMetadata (block.metadata.getD index []))

namespace Verifier

variable (v : Verifier C)

def unwrapReq (_ : Verifier C) (rawRequest : Bytes) : Except String Request := do
  let envelope ← C.unmarshalEnvelope rawRequest
  let payloadHeader ← wrap "failed unmarshaling payload" (C.unmarshalPayload envelope.payload)
  let header ← okOr payloadHeader "no header in payload"
  let sigHdr ← C.unmarshalSignatureHeader header.signatureHeader
  ensure (header.channelHeader ≠ []) "no channel header in payload"
  let type ← wrap "error unmarshaling channel header"
    (C.unmarshalChannelHeaderType header.channelHeader)
  return ⟨sigHdr, envelope, type⟩

def requestIDFromSigHeader (sigHdr : SignatureHeader) : Except String RequestInfo := do
  v.validateIdentity sigHdr.creator
  return ⟨encodeToString (C.sha256 sigHdr.creator),
    encodeToString (C.sha256 (sigHdr.nonce ++ sigHdr.creator))⟩

def verifyRequest (rawRequest : Bytes) (noConfigAllowed : Bool) : Except String RequestInfo := do
  let req ← v.unwrapReq rawRequest
  wrap "access denied"
    (v.evaluate ⟨req.envelope.payload, req.sigHdr.creator, req.envelope.signature⟩)
  ensure (noConfigAllowed → req.type = headerTypeEndorserTransaction)
    "only endorser transactions can be sent with other transactions"
  ensure (req.type ∈ [headerTypeConfig, headerTypeOrdererTransaction,
      headerTypeEndorserTransaction])
    s!"transaction of type {headerTypeName req.type} is not allowed to be included in blocks"
  if req.type = headerTypeConfig ∨ req.type = headerTypeOrdererTransaction then
    v.validateConfig req.envelope
  v.requestIDFromSigHeader req.sigHdr

/-- The answer is the first error that arrives, or the infos in the order of the block. -/
def validateTransactions (data : List Bytes) : Except String (List RequestInfo) := do
  let noConfigAllowed := decide (1 < data.length)
  let _ ← (v.arrival data).mapM fun txn => v.verifyRequest txn noConfigAllowed
  data.mapM fun txn => v.verifyRequest txn noConfigAllowed

def verifyBlockDataAndMetadata (block : ProposedBlock) (metadata : Bytes) :
    Except String (List RequestInfo) := do
  ensure (block.data ≠ []) "empty block data"
  ensure (5 ≤ block.metadata.length)
    "block metadata is either missing or contains too few entries"
  let signatureMetadata ← getMetadataFromBlock C block 0 "SIGNATURES"
  let orderer ← wrap "failed unmarshaling OrdererBlockMetadata"
    (C.unmarshalOrdererBlockMetadata signatureMetadata.value)
  let inBlock ← wrap "failed unmarshaling smartbft metadata from block"
    (C.unmarshalViewMetadata orderer.consenterMetadata)
  let fromProposal ← wrap "failed unmarshaling smartbft metadata from proposal"
    (C.unmarshalViewMetadata metadata)
  ensure (inBlock = fromProposal)
    s!"expected metadata in block to be {C.showViewMetadata fromProposal} but got {C.showViewMetadata inBlock}"
  let lastConfig := if isConfigBlock C block.data then block.header.number
    else v.runtimeConfig.lastConfigBlock.number
  let index ← okOr orderer.lastConfig "last config is nil"
  ensure (index = lastConfig)
    s!"last config in block orderer metadata points to {index} but our persisted last config is {lastConfig}"
  let rawLastConfig ← getMetadataFromBlock C block 1 "LAST_CONFIG"
  let lastConf ← C.unmarshalLastConfig rawLastConfig.value
  ensure (lastConf = lastConfig)
    s!"last config in block metadata points to {index} but our persisted last config is {lastConfig}"
  v.validateTransactions block.data

def verifyProposal (proposal : Proposal) : Except String (List RequestInfo) := do
  let block ← proposalToBlock C proposal
  verifyHashChain C block v.runtimeConfig.lastCommittedBlockHash
  let requests ← v.verifyBlockDataAndMetadata block proposal.metadata
  ensure (v.sequence = (proposal.verificationSequence % 2 ^ 64).toNat)
    s!"expected verification sequence {v.sequence}, but proposal has {proposal.verificationSequence}"
  return requests

/-! ## What an accepted proposal is -/

/-- The index of the last config block, in both places of the metadata, is that of the block itself
if it is a config block. -/
def LastConfigIs (block : ProposedBlock) (lastConfig : Nat) : Prop :=
  (∃ md orderer, C.unmarshalMetadata (block.metadata.getD 0 []) = .ok md ∧
    C.unmarshalOrdererBlockMetadata md.value = .ok orderer ∧ orderer.lastConfig = some lastConfig) ∧
  ∃ md, C.unmarshalMetadata (block.metadata.getD 1 []) = .ok md ∧
    C.unmarshalLastConfig md.value = .ok lastConfig

structure ExtendsChain (proposal : Proposal) (block : ProposedBlock) : Prop where
  number : block.header.number = v.runtimeConfig.lastBlock.number + 1
  previousHash : v.runtimeConfig.lastBlock.hash C.toCodec = .ok block.header.previousHash
  dataHash : block.header.dataHash = C.sha256 block.data.flatten
  lastConfig : LastConfigIs (C := C) block (if isConfigBlock C block.data then block.header.number
    else v.runtimeConfig.lastConfigBlock.number)
  viewMetadata : ∃ md orderer, C.unmarshalMetadata (block.metadata.getD 0 []) = .ok md ∧
    C.unmarshalOrdererBlockMetadata md.value = .ok orderer ∧ ∃ view,
      C.unmarshalViewMetadata orderer.consenterMetadata = .ok view ∧
      C.unmarshalViewMetadata proposal.metadata = .ok view
  data : (∃ txn info, block.data = [txn] ∧ v.verifyRequest txn false = .ok info) ∨
    ∀ txn ∈ block.data, (∃ info, v.verifyRequest txn true = .ok info) ∧
      ∃ req, v.unwrapReq txn = .ok req ∧ req.type = headerTypeEndorserTransaction

end Verifier

theorem hexDigit_inj : ∀ m < 16, ∀ n < 16, hexDigit m = hexDigit n → m = n := by decide

theorem encodeToString_inj {a b} (h : encodeToString a = encodeToString b) : a = b := by
  have hdigits := String.ofList_injective h
  clear h
  induction a generalizing b with
  | nil =>
    cases b with
    | nil => rfl
    | cons => simp at hdigits
  | cons x _ ih =>
    cases b with
    | nil => simp at hdigits
    | cons y =>
      simp only [flatMap_cons, cons_append, nil_append, cons.injEq] at hdigits
      obtain ⟨hhigh, hlow, hrest⟩ := hdigits
      have hx := x.toNat_lt
      have hy := y.toNat_lt
      have hdiv := hexDigit_inj _ (by omega) _ (by omega) hhigh
      have hmod := hexDigit_inj _ (by omega) _ (by omega) hlow
      rw [ih hrest, UInt8.toNat_inj.mp (show x.toNat = y.toNat by omega)]

@[simp] theorem wrap_eq_ok {α message} {x : Except String α} {a} :
    wrap message x = .ok a ↔ x = .ok a := by
  cases x <;> simp [wrap, mapErr]

theorem mapM_eq_ok {α β : Type} {f : α → Except String β} {l : List α} {result}
    (h : l.mapM f = .ok result) {x} (hx : x ∈ l) : ∃ y, f x = .ok y := by
  induction l generalizing result with
  | nil => simp at hx
  | cons _ _ ih =>
    simp only [mapM_cons, bind_eq_ok] at h
    obtain ⟨y, hfirst, _, hrest, -⟩ := h
    rcases mem_cons.mp hx with rfl | hx
    · exact ⟨y, hfirst⟩
    · exact ih hrest hx

namespace Verifier

variable {v : Verifier C} {proposal : Proposal} {block : ProposedBlock}
  {requests : List RequestInfo}

theorem type_of_verifyRequest {txn} {info} (h : v.verifyRequest txn true = .ok info) :
    ∃ req, v.unwrapReq txn = .ok req ∧ req.type = headerTypeEndorserTransaction := by
  simp only [verifyRequest, bind_eq_ok, ensure_eq_ok] at h
  obtain ⟨req, hreq, _, -, _, htype, -⟩ := h
  exact ⟨req, hreq, htype trivial⟩

theorem data_of_validateTransactions {data} (hne : data ≠ [])
    (h : v.validateTransactions data = .ok requests) :
    (∃ txn info, data = [txn] ∧ v.verifyRequest txn false = .ok info) ∨
      ∀ txn ∈ data, (∃ info, v.verifyRequest txn true = .ok info) ∧
        ∃ req, v.unwrapReq txn = .ok req ∧ req.type = headerTypeEndorserTransaction := by
  simp only [validateTransactions, bind_eq_ok] at h
  obtain ⟨_, -, hall⟩ := h
  cases data with
  | nil => exact absurd rfl hne
  | cons first data =>
    cases data with
    | nil =>
      obtain ⟨info, hinfo⟩ := mapM_eq_ok hall mem_cons_self
      exact .inl ⟨first, info, rfl, hinfo⟩
    | cons =>
      refine .inr fun _ htxn => ?_
      obtain ⟨info, hinfo⟩ := mapM_eq_ok hall htxn
      exact ⟨⟨info, hinfo⟩, type_of_verifyRequest hinfo⟩

theorem extendsChain_of_number (hhash : verifyHashChain C block
      v.runtimeConfig.lastCommittedBlockHash = .ok ())
    (hdata : v.verifyBlockDataAndMetadata block proposal.metadata = .ok requests)
    (hnumber : block.header.number = v.runtimeConfig.lastBlock.number + 1) :
    v.ExtendsChain proposal block := by
  simp only [verifyHashChain, bind_eq_ok, ensure_eq_ok] at hhash
  obtain ⟨_, hprevious, hdataHash⟩ := hhash
  simp only [verifyBlockDataAndMetadata, getMetadataFromBlock, bind_eq_ok, ensure_eq_ok,
    okOr_eq_ok, wrap_eq_ok] at hdata
  obtain ⟨_, hne, _, -, md, hmd, orderer, horderer, view, hview, _, hproposal, _, rfl, _,
    hindex, _, rfl, md', hmd', _, hlast, _, rfl, htxns⟩ := hdata
  exact {
    number := hnumber
    previousHash := encodeToString_inj hprevious ▸ v.runtimeConfig.hash_eq
    dataHash := encodeToString_inj hdataHash
    lastConfig := ⟨⟨md, orderer, hmd, horderer, hindex⟩, md', hmd', hlast⟩
    viewMetadata := ⟨md, orderer, hmd, horderer, view, hview, hproposal⟩
    data := data_of_validateTransactions hne htxns }

end Verifier

/-- The number of the block is the one thing that is not compared with the last block. -/
theorem verifyProposal_extendsChain_iff (v : Verifier C) (proposal : Proposal)
    (requests : List RequestInfo) (h : v.verifyProposal proposal = .ok requests) :
    ∃ block, proposalToBlock C proposal = .ok block ∧
      (v.ExtendsChain proposal block ↔ ∃ header, C.unmarshalHeader proposal.header = .ok header ∧
        header.number = v.runtimeConfig.lastBlock.number + 1) := by
  simp only [Verifier.verifyProposal, bind_eq_ok] at h
  obtain ⟨block, hblock, _, hhash, _, hdata, -⟩ := h
  refine ⟨block, hblock, ?_⟩
  simp only [proposalToBlock, bind_eq_ok, wrap_eq_ok, pure_eq_ok] at hblock
  obtain ⟨_, -, header, hheader, _, -, _, -, _, -, _, -, rfl⟩ := hblock
  constructor
  · exact fun hextends => ⟨header, hheader, hextends.number⟩
  · rintro ⟨_, hheader', hnumber⟩
    obtain rfl := Except.ok.inj (hheader.symm.trans hheader')
    exact Verifier.extendsChain_of_number hhash hdata hnumber

/-- A header is the number, the hash of the header before and that of the one transaction. -/
def plainProposals : ProposalCodec UInt8 where
  toCodec := plainCodec
  unmarshalHeader header := .ok ⟨(header.headD 0).toNat, (header.drop 1).take 1, header.drop 2⟩
  unmarshalTuple payload := .ok (payload, [])
  unmarshalBlockData data := .ok [data]
  unmarshalBlockMetadata _ := .ok (replicate 5 [])
  unmarshalOrdererBlockMetadata _ := .ok ⟨some 0, []⟩
  unmarshalViewMetadata _ := .ok default
  showViewMetadata _ := ""
  unmarshalLastConfig _ := .ok 0
  unmarshalEnvelope txn := .ok ⟨txn, []⟩
  unmarshalPayload payload := .ok (some ⟨payload, []⟩)
  unmarshalSignatureHeader _ := .ok ⟨[], []⟩

def afterBlockSix : Verifier plainProposals where
  runtimeConfig := ⟨⟨6, [5], [3]⟩, ⟨0, [], []⟩, [6], rfl, by decide⟩
  validateIdentity _ := .ok ()
  evaluate _ := .ok ()
  validateConfig _ := .ok ()
  sequence := 0
  arrival := id
  arrival_perm _ := .refl _

theorem verifyProposal_extendsChain_seven :
    ∃ requests block, afterBlockSix.verifyProposal ⟨[7, 6, 3], [3], [], 0⟩ = .ok requests ∧
      proposalToBlock plainProposals ⟨[7, 6, 3], [3], [], 0⟩ = .ok block ∧
      afterBlockSix.ExtendsChain ⟨[7, 6, 3], [3], [], 0⟩ block := by
  have haccept : afterBlockSix.verifyProposal ⟨[7, 6, 3], [3], [], 0⟩ = .ok [⟨"", ""⟩] := by
    decide +kernel
  obtain ⟨block, hblock, hiff⟩ := verifyProposal_extendsChain_iff afterBlockSix _ _ haccept
  exact ⟨_, block, haccept, hblock, hiff.mpr ⟨_, rfl, rfl⟩⟩

/-- Block 9 is accepted after block 6. -/
theorem verifyProposal_skips_numbers :
    ∃ requests block, afterBlockSix.verifyProposal ⟨[9, 6, 3], [3], [], 0⟩ = .ok requests ∧
      proposalToBlock plainProposals ⟨[9, 6, 3], [3], [], 0⟩ = .ok block ∧
      block.header.number = 9 ∧ afterBlockSix.runtimeConfig.lastBlock.number = 6 := by
  have haccept : afterBlockSix.verifyProposal ⟨[9, 6, 3], [3], [], 0⟩ = .ok [⟨"", ""⟩] := by
    decide +kernel
  exact ⟨_, _, haccept, rfl, rfl, rfl⟩

end Loki.Fabric.SmartBFT
