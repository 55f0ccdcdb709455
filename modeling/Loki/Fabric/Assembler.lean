import Mathlib.Data.List.TakeWhile
import Mathlib.Logic.Equiv.List
import Mathlib.Tactic.DeriveEncodable
import Loki.Fabric.ProposalVerifier

/-!
# Assembly of BFT proposals

`orderer/consensus/smartbft/assembler.go`.  The leader packs requests into a block and encodes it;
a follower decodes the block and computes it again.
-/

namespace Loki.Fabric.SmartBFT

open Loki.Foundation Cauthdsl Cluster List

variable {ConfigEnvelope : Type}

/-- Each encoder is undone by the decoder of the verifier. -/
structure ProposalEncoder (C : ProposalCodec ConfigEnvelope) where
  marshalTuple : Bytes × Bytes → Bytes
  marshalBlockData : List Bytes → Bytes
  marshalBlockMetadata : List Bytes → Bytes
  marshalMetadata : Bytes → Bytes
  marshalLastConfig : Nat → Bytes
  marshalOrdererBlockMetadata : OrdererBlockMetadata → Bytes
  header_ne : ∀ header, C.marshalHeader header ≠ []
  tuple_ne : ∀ tuple, marshalTuple tuple ≠ []
  header : ∀ header : BlockHeader, header.number < 2 ^ 63 →
    C.unmarshalHeader (C.marshalHeader header) = .ok header
  tuple : ∀ tuple, C.unmarshalTuple (marshalTuple tuple) = .ok tuple
  blockData : ∀ data, C.unmarshalBlockData (marshalBlockData data) = .ok data
  blockMetadata : ∀ entries, C.unmarshalBlockMetadata (marshalBlockMetadata entries) = .ok entries
  metadata : ∀ value, C.unmarshalMetadata (marshalMetadata value) = .ok ⟨value, []⟩
  lastConfig : ∀ index < 2 ^ 64, C.unmarshalLastConfig (marshalLastConfig index) = .ok index
  ordererBlockMetadata : ∀ orderer : OrdererBlockMetadata,
    (∀ index ∈ orderer.lastConfig, index < 2 ^ 64) →
      C.unmarshalOrdererBlockMetadata (marshalOrdererBlockMetadata orderer) = .ok orderer

structure Assembler (C : ProposalCodec ConfigEnvelope) extends ProposalEncoder C where
  runtimeConfig : RuntimeConfig C.toCodec
  verificationSeq : UInt64

section Batch

variable (C : ProposalCodec ConfigEnvelope)

def isConfigTransaction (envelope : Envelope) : Bool :=
  match C.unmarshalPayload envelope.payload with
  | .ok (some header) =>
    match C.unmarshalChannelHeaderType header.channelHeader with
    | .ok type => type = headerTypeConfig ∨ type = headerTypeOrdererTransaction
    | .error _ => false
  | _ => false

/-- The loop of `singleConfigTxOrSeveralNonConfigTx`. -/
def scanRequests : List Bytes → Outcome (List Bytes)
  | [] => .ok []
  | currentRequest :: requests =>
    match C.unmarshalEnvelope currentRequest with
    | .error err => .error (.panic
        s!"Programming error, received bad envelope but should have validated it: {err}")
    | .ok envelope =>
      if isConfigTransaction C envelope then .ok []
      else do return currentRequest :: (← scanRequests requests)

def singleConfigTxOrSeveralNonConfigTx (requests : List Bytes) : Outcome (List Bytes) := do
  let batchedRequests ← scanRequests C requests
  return if batchedRequests = [] then requests.take 1 else batchedRequests

def isConfigRequest (request : Bytes) : Bool :=
  match C.unmarshalEnvelope request with
  | .ok envelope => isConfigTransaction C envelope
  | .error _ => false

/-- What a batch is for: the longest prefix without a config transaction, or the first request if
that is one. -/
def batchOf (requests : List Bytes) : List Bytes :=
  if requests.head?.any (isConfigRequest C) then requests.take 1
  else requests.takeWhile (!isConfigRequest C ·)

end Batch

variable {C : ProposalCodec ConfigEnvelope}

def Assembler.assembleProposal (a : Assembler C) (metadata : Bytes) (requests : List Bytes) :
    Outcome Proposal := do
  ensure (requests ≠ []) (.panic "Programming error, no requests in proposal")
  let batchedRequests ← singleConfigTxOrSeveralNonConfigTx C requests
  let previousHash ← a.runtimeConfig.lastBlock.hash C.toCodec
  let number := (a.runtimeConfig.lastBlock.number + 1) % 2 ^ 64
  let lastConfigBlockNum := if isConfigBlock C batchedRequests then number
    else a.runtimeConfig.lastConfigBlock.number
  let signatures := a.marshalMetadata
    (a.marshalOrdererBlockMetadata ⟨some lastConfigBlockNum, metadata⟩)
  let lastConfig := a.marshalMetadata (a.marshalLastConfig lastConfigBlockNum)
  let header ←
    (BlockHeader.mk number previousHash (C.sha256 batchedRequests.flatten)).bytes C.toCodec
  return {
    header := header
    payload := a.marshalTuple (a.marshalBlockData batchedRequests,
      a.marshalBlockMetadata [signatures, lastConfig, [], [], []])
    metadata := metadata
    verificationSequence := a.verificationSeq.toInt64.toInt }

/-! ## The batch -/

variable {v : Verifier C} {request : Bytes} {requests : List Bytes} {info : RequestInfo}

theorem isConfigRequest_eq {req} (h : v.unwrapReq request = .ok req) :
    isConfigRequest C request =
      decide (req.type = headerTypeConfig ∨ req.type = headerTypeOrdererTransaction) := by
  simp only [Verifier.unwrapReq, bind_eq_ok, wrap_eq_ok, okOr_eq_ok, pure_eq_ok] at h
  obtain ⟨envelope, henvelope, _, hpayload, header, rfl, _, -, _, -, type, htype, rfl⟩ := h
  simp only [isConfigRequest, henvelope, isConfigTransaction, hpayload, htype]

theorem unwrapReq_of_verifyRequest {noConfigAllowed}
    (h : v.verifyRequest request noConfigAllowed = .ok info) :
    ∃ req, v.unwrapReq request = .ok req := by
  simp only [Verifier.verifyRequest, bind_eq_ok] at h
  obtain ⟨req, hreq, -⟩ := h
  exact ⟨req, hreq⟩

/-- A request that is no config transaction may stand beside others. -/
theorem verifyRequest_true (h : v.verifyRequest request false = .ok info)
    (hconfig : isConfigRequest C request = false) : v.verifyRequest request true = .ok info := by
  simp only [Verifier.verifyRequest, bind_eq_ok, ensure_eq_ok] at h ⊢
  obtain ⟨req, hreq, _, haccess, _, -, _, htype, hrest⟩ := h
  rw [isConfigRequest_eq hreq, decide_eq_false_iff_not] at hconfig
  refine ⟨req, hreq, (), haccess, (), fun _ => ?_, (), htype, hrest⟩
  simp only [mem_cons, not_mem_nil, or_false] at htype
  tauto

section

variable (h : ∀ request ∈ requests, ∃ req, v.unwrapReq request = .ok req)

include h

theorem scanRequests_eq :
    scanRequests C requests = .ok (requests.takeWhile (!isConfigRequest C ·)) := by
  induction requests with
  | nil => rfl
  | cons first requests ih =>
    obtain ⟨req, hreq⟩ := h first mem_cons_self
    simp only [Verifier.unwrapReq, bind_eq_ok] at hreq
    obtain ⟨envelope, henvelope, -⟩ := hreq
    have hfirst : isConfigRequest C first = isConfigTransaction C envelope := by
      simp only [isConfigRequest, henvelope]
    simp only [scanRequests, henvelope, takeWhile_cons, hfirst]
    cases isConfigTransaction C envelope with
    | true => rfl
    | false =>
      simp [ih fun r hr => h r (mem_cons_of_mem _ hr), pure, Except.pure, bind, Except.bind]

theorem singleConfigTxOrSeveralNonConfigTx_eq :
    singleConfigTxOrSeveralNonConfigTx C requests = .ok (batchOf C requests) := by
  simp only [singleConfigTxOrSeveralNonConfigTx, scanRequests_eq h, batchOf, bind_eq_ok, pure_eq_ok]
  refine ⟨_, rfl, ?_⟩
  cases requests with
  | nil => rfl
  | cons first _ => cases hfirst : isConfigRequest C first <;> simp [hfirst]

end

theorem mem_of_mem_batchOf (h : request ∈ batchOf C requests) : request ∈ requests := by
  unfold batchOf at h
  split at h
  · exact mem_of_mem_take h
  · exact (takeWhile_sublist _).subset h

theorem batchOf_ne_nil (h : requests ≠ []) : batchOf C requests ≠ [] := by
  cases requests with
  | nil => exact absurd rfl h
  | cons first _ => cases hfirst : isConfigRequest C first <;> simp [batchOf, hfirst]

theorem mapM_eq_ok_map {α β : Type} {f : α → Except String β} {g : α → β} {l : List α}
    (h : ∀ x ∈ l, f x = .ok (g x)) : l.mapM f = .ok (l.map g) := by
  induction l with
  | nil => rfl
  | cons x l ih =>
    rw [mapM_cons, h x mem_cons_self, ih fun y hy => h y (mem_cons_of_mem _ hy)]
    rfl

theorem validateTransactions_batchOf {info : Bytes → RequestInfo}
    (h : ∀ request ∈ requests, v.verifyRequest request false = .ok (info request)) :
    v.validateTransactions (batchOf C requests) = .ok ((batchOf C requests).map info) := by
  have hall : ∀ request ∈ batchOf C requests,
      v.verifyRequest request (decide (1 < (batchOf C requests).length)) = .ok (info request) := by
    intro request hmem
    have hinfo := h request (mem_of_mem_batchOf hmem)
    cases hlen : decide (1 < (batchOf C requests).length) with
    | false => exact hinfo
    | true =>
      refine verifyRequest_true hinfo ?_
      unfold batchOf at hmem hlen
      split at hmem
      next hfirst =>
        rw [if_pos hfirst] at hlen
        simp at hlen
      next => simpa using mem_takeWhile_imp hmem
  have harrival := mapM_eq_ok_map fun request hmem =>
    hall request ((v.arrival_perm _).mem_iff.mp hmem)
  simp only [Verifier.validateTransactions, harrival]
  exact mapM_eq_ok_map hall

/-! ## An honest proposal is accepted -/

theorem ProposalEncoder.proposalToBlock_eq (E : ProposalEncoder C) {header : BlockHeader}
    (hnumber : header.number < 2 ^ 63) {data entries metadata sequence} :
    proposalToBlock C ⟨C.marshalHeader header,
      E.marshalTuple (E.marshalBlockData data, E.marshalBlockMetadata entries), metadata,
      sequence⟩ = .ok ⟨header, data, entries⟩ := by
  simp only [proposalToBlock, bind_eq_ok, ensure_eq_ok, pure_eq_ok, wrap_eq_ok]
  exact ⟨(), E.header_ne _, _, E.header _ hnumber, (), E.tuple_ne _, _, E.tuple _, _,
    E.blockData _, _, E.blockMetadata _, rfl⟩

theorem toInt_toInt64 (n : UInt64) : (n.toInt64.toInt % 2 ^ 64).toNat = n.toNat := by
  have hbmod := Int.bmod_emod (x := n.toNat) (m := 2 ^ 64)
  have hlt := n.toNat_lt
  simp only [Int64.toInt, UInt64.toInt64, BitVec.toInt_eq_toNat_bmod]
  change (Int.bmod n.toNat (2 ^ 64) % 2 ^ 64).toNat = n.toNat
  omega

instance instEncodableByte : Encodable UInt8 :=
  .ofLeftInverse UInt8.toNat UInt8.ofNat fun _ => UInt8.ofNat_toNat

deriving instance Encodable for BlockHeader, OrdererBlockMetadata

/-- The length of the bytes is the value. -/
def unary {α : Type} [Encodable α] (a : α) : Bytes := replicate (Encodable.encode a + 1) 0

def ofUnary {α : Type} [Encodable α] (bytes : Bytes) : Except String α :=
  okOr (Encodable.decode (bytes.length - 1)) ""

theorem ofUnary_unary {α : Type} [Encodable α] (a : α) : ofUnary (unary a) = .ok a := by
  simp [ofUnary, unary]

def unaryProposals : ProposalCodec UInt8 :=
  { plainProposals with
    marshalHeader := unary
    unmarshalHeader := ofUnary
    unmarshalTuple := ofUnary
    unmarshalBlockData := ofUnary
    unmarshalBlockMetadata := ofUnary
    unmarshalMetadata := fun value => .ok ⟨value, []⟩
    unmarshalLastConfig := ofUnary
    unmarshalOrdererBlockMetadata := ofUnary }

def unaryAssembler : Assembler unaryProposals where
  marshalTuple := unary
  marshalBlockData := unary
  marshalBlockMetadata := unary
  marshalMetadata := id
  marshalLastConfig := unary
  marshalOrdererBlockMetadata := unary
  header_ne _ := nofun
  tuple_ne _ := nofun
  header _ _ := ofUnary_unary _
  tuple := ofUnary_unary
  blockData := ofUnary_unary
  blockMetadata := ofUnary_unary
  metadata _ := rfl
  lastConfig index _ := ofUnary_unary index
  ordererBlockMetadata _ _ := ofUnary_unary _
  runtimeConfig := ⟨⟨6, [5], [3]⟩, ⟨2, [], []⟩, unary (BlockHeader.mk 6 [5] [3]), rfl, by decide⟩
  verificationSeq := 0

def afterUnarySix : Verifier unaryProposals :=
  { afterBlockSix with runtimeConfig := unaryAssembler.runtimeConfig }

end Loki.Fabric.SmartBFT
