import Loki.Fabric.Cauthdsl

/-!
# Verification of replicated blocks

`orderer/common/cluster/util.go`.  A batch of blocks is checked in two loops: the first follows the
hash chain, the second checks signatures, with the configuration that the blocks before have
brought.  The encodings and the hash are parameters, and so is the verifier, which is an interface.

In BFT mode the second loop checks every block and takes over the configuration of each, also when
the block carries none.
-/

namespace Loki.Fabric.Cluster

open Loki.Foundation Cauthdsl List

abbrev Bytes := List UInt8

structure BlockHeader where
  number : Nat
  previousHash : Bytes
  dataHash : Bytes
  deriving DecidableEq, Repr

structure Block where
  header : Option BlockHeader
  data : Option (List Bytes)
  metadata : Option (List Bytes)
  deriving DecidableEq, Repr

structure Payload where
  channelHeader : Option Bytes
  data : Bytes

structure MetadataSignature where
  signerId : Nat
  signatureHeader : Bytes
  nonce : Bytes
  auxiliaryInput : Bytes
  signature : Bytes

structure Metadata where
  value : Bytes
  signatures : List MetadataSignature

structure Codec (ConfigEnvelope : Type) where
  sha256 : Bytes → Bytes
  marshalHeader : BlockHeader → Bytes
  getEnvelopeFromBlock : Bytes → Except String Bytes
  getPayload : Bytes → Except String Payload
  unmarshalConfigEnvelope : Bytes → Except String ConfigEnvelope
  unmarshalChannelHeaderType : Bytes → Except String Nat
  unmarshalMetadata : Bytes → Except String Metadata
  unmarshalCreator : Bytes → Except String Bytes
  marshalSignatureHeader : Bytes → Bytes → Bytes

structure BlockVerifier (ConfigEnvelope : Type) where
  verifyBlockSignature : List SignedData → Option ConfigEnvelope → Except String Unit
  id2Identity : Option ConfigEnvelope → Nat → Bytes

inductive ConfigError where
  | notAConfig
  | other (fault : Fault String)

/-- `errors.WithStack`. -/
def withStack {α : Type} (x : Except String α) : Except ConfigError α :=
  mapErr (fun e => .other (.error e)) x

def headerTypeConfig : Nat := 1

def hexDigit (n : Nat) : Char :=
  if n < 10 then Char.ofNat (48 + n) else Char.ofNat (87 + n)

/-- `hex.EncodeToString`. -/
def encodeToString (bytes : Bytes) : String :=
  String.ofList (bytes.flatMap fun b => [hexDigit (b.toNat / 16), hexDigit (b.toNat % 16)])

def nilPointer : Fault String :=
  .panic "runtime error: invalid memory address or nil pointer dereference"

variable {ConfigEnvelope : Type} (C : Codec ConfigEnvelope)

/-- `BlockHeader.Bytes`. -/
def BlockHeader.bytes (header : BlockHeader) : Outcome Bytes :=
  if 2 ^ 63 ≤ header.number then
    .error (.panic "Golang does not currently support encoding uint64 to asn1")
  else .ok (C.marshalHeader header)

def BlockHeader.hash (header : BlockHeader) : Outcome Bytes := do
  return C.sha256 (← header.bytes C)

def configFromBlock (block : Block) : Except ConfigError ConfigEnvelope := do
  let txn ← okOr (block.data.bind head?) (.other (.error "empty block"))
  let payload ← withStack (C.getEnvelopeFromBlock txn >>= C.getPayload)
  let header ← okOr block.header (.other nilPointer)
  let envelope := mapErr (fun e => ConfigError.other (.error s!"invalid config envelope: {e}"))
    (C.unmarshalConfigEnvelope payload.data)
  if header.number = 0 then envelope
  else
    let channelHeader ← okOr payload.channelHeader (.other (.error "nil header in payload"))
    let type ← withStack (C.unmarshalChannelHeaderType channelHeader)
    if type = headerTypeConfig then envelope else .error .notAConfig

/-- `VerifyBlockHash`, with the block before in the buffer. -/
def verifyBlockHash (prevBlock : Option Block) (block : Block) : Outcome Unit := do
  let header ← okOr block.header (.error "missing block header")
  let data ← okOr block.data nilPointer
  ensure (C.sha256 data.flatten = header.dataHash) (.error
    s!"computed hash of block ({header.number}) ({encodeToString (C.sha256 data.flatten)}) doesn't match claimed hash ({encodeToString header.dataHash})")
  match prevBlock with
  | none => return
  | some prevBlock =>
    let prevHeader ← okOr prevBlock.header (.error "previous block header is nil")
    ensure ((prevHeader.number + 1) % 2 ^ 64 = header.number) (.error
      s!"sequences {prevHeader.number} and {header.number} were received consecutively")
    let prevHash ← prevHeader.hash C
    ensure (header.previousHash = prevHash) (.error
      s!"block [{prevHeader.number}]'s hash ({encodeToString prevHash}) mismatches {header.number}'s prev block hash ({encodeToString header.previousHash})")

/-- The first loop of `verifyBlockSequence`. -/
def verifyHashes : Option Block → List Block → Outcome Unit
  | _, [] => .ok ()
  | prevBlock, block :: blocks => do
    verifyBlockHash C prevBlock block
    verifyHashes (some block) blocks

/-- One signature of the loop of `SignatureSetFromBlock`. -/
def signedData (block : Block) (value : Bytes) (id2identities : Nat → Bytes)
    (s : MetadataSignature) : Outcome SignedData := do
  let header ← okOr block.header nilPointer
  let (identity, signatureHeader) ←
    if s.signatureHeader.length > 0 then do
      let creator ← mapErr (fun e => .error
        s!"failed unmarshaling signature header for block with id {header.number}: {e}")
        (C.unmarshalCreator s.signatureHeader)
      pure (creator, s.signatureHeader)
    else
      pure (id2identities s.signerId, C.marshalSignatureHeader (id2identities s.signerId) s.nonce)
  let bytes ← header.bytes C
  return ⟨value ++ signatureHeader ++ bytes ++ s.auxiliaryInput, identity, s.signature⟩

def signatureSetFromBlock (block : Block) (id2identities : Nat → Bytes) :
    Outcome (List SignedData) := do
  let bytes ← okOr (block.metadata.bind head?) (.error "no metadata in block")
  let metadata ← mapErr
    (fun e => .error s!"failed unmarshaling medatata for signatures: {e}")
    (C.unmarshalMetadata bytes)
  metadata.signatures.mapM (signedData C block metadata.value id2identities)

def verifyBlockSignature (verifier : BlockVerifier ConfigEnvelope) (block : Block)
    (config : Option ConfigEnvelope) : Outcome Unit := do
  let signatureSet ← signatureSetFromBlock C block (verifier.id2Identity config)
  mapErr .error (verifier.verifyBlockSignature signatureSet config)

/-- The second loop of `verifyBlockSequence`: the configuration it carries, and whether the last
block is a config block. -/
def verifyConfigs (verifier : BlockVerifier ConfigEnvelope) (alwaysCheckSig : Bool) :
    List Block → Option ConfigEnvelope → Bool →
    Outcome (Option ConfigEnvelope × Bool)
  | [], config, isLastBlockConfigBlock => .ok (config, isLastBlockConfigBlock)
  | block :: blocks, config, _ =>
    match configFromBlock C block with
    | .ok configFromBlock => do
      verifyBlockSignature C verifier block config
      verifyConfigs verifier alwaysCheckSig blocks (some configFromBlock) true
    | .error e =>
      if alwaysCheckSig then do
        verifyBlockSignature C verifier block config
        verifyConfigs verifier alwaysCheckSig blocks none true
      else
        match e with
        | .notAConfig => verifyConfigs verifier alwaysCheckSig blocks config false
        | .other fault => .error fault

variable (blockBuff : List Block) (verifier : BlockVerifier ConfigEnvelope)

def verifyBlockSequence (alwaysCheckSig : Bool) : Outcome Unit := do
  let lastBlock ← okOr blockBuff.getLast? (.error "buffer is empty")
  verifyHashes C none blockBuff
  let (config, isLastBlockConfigBlock) ←
    verifyConfigs C verifier alwaysCheckSig blockBuff none false
  if isLastBlockConfigBlock then return
  verifyBlockSignature C verifier lastBlock config

def verifyBlocksCFT : Outcome Unit :=
  verifyBlockSequence C blockBuff verifier false

def verifyBlocksBFT : Outcome Unit :=
  verifyBlockSequence C blockBuff verifier true

/-! ## What an accepted batch has been checked for -/

def IsConfig (block : Block) : Prop := ∃ config, configFromBlock C block = .ok config

/-- The configuration that the second loop carries after some blocks. -/
def carried (alwaysCheckSig : Bool) (blocks : List Block) : Option ConfigEnvelope :=
  blocks.foldl (fun config block =>
    match configFromBlock C block with
    | .ok config => some config
    | .error _ => if alwaysCheckSig then none else config) none

/-- The configuration of the last config block, or the committed one. -/
def configInForce (blocks : List Block) : Option ConfigEnvelope := carried C false blocks

/-- The data hash is right, and the block follows the one before. -/
def Linked (prevBlock : Option Block) (block : Block) : Prop :=
  ∃ header data, block.header = some header ∧ block.data = some data ∧
    C.sha256 data.flatten = header.dataHash ∧
    ∀ prev, prevBlock = some prev → ∃ prevHeader, prev.header = some prevHeader ∧
      header.number = prevHeader.number + 1 ∧ prevHeader.hash C = .ok header.previousHash

section

variable {C} {verifier : BlockVerifier ConfigEnvelope} {alwaysCheckSig : Bool}
  {blocks before after : List Block} {block : Block}

theorem linked_of_verifyBlockHash {prevBlock}
    (h : verifyBlockHash C prevBlock block = .ok ()) : Linked C prevBlock block := by
  simp only [verifyBlockHash, bind_eq_ok, okOr_eq_ok, ensure_eq_ok] at h
  obtain ⟨header, hheader, data, hdata, _, hhash, hprev⟩ := h
  refine ⟨header, data, hheader, hdata, hhash, ?_⟩
  rintro _ rfl
  simp only [bind_eq_ok, okOr_eq_ok, ensure_eq_ok] at hprev
  obtain ⟨prevHeader, hprevHeader, _, _, _, hprevHash, rfl⟩ := hprev
  refine ⟨prevHeader, hprevHeader, ?_, hprevHash⟩
  -- The hash of the header before was computed, so its number is far from overflowing.
  have hsmall : prevHeader.number < 2 ^ 63 := by
    simp only [BlockHeader.hash, BlockHeader.bytes, bind_eq_ok] at hprevHash
    obtain ⟨_, hbytes, -⟩ := hprevHash
    split at hbytes
    · cases hbytes
    · omega
  omega

theorem linked_of_verifyHashes {prevBlock}
    (h : verifyHashes C prevBlock (before ++ block :: after) = .ok ()) :
    Linked C (before.getLast?.or prevBlock) block := by
  induction before generalizing prevBlock with
  | nil =>
    simp only [nil_append, verifyHashes, bind_eq_ok] at h
    obtain ⟨_, hblock, -⟩ := h
    exact linked_of_verifyBlockHash hblock
  | cons _ before ih =>
    simp only [cons_append, verifyHashes, bind_eq_ok] at h
    obtain ⟨_, -, hrest⟩ := h
    have hlinked := ih hrest
    rw [getLast?_cons]
    cases hlast : before.getLast? with
    | none | some => simpa [hlast] using hlinked

theorem carried_concat_of_config {config} (h : configFromBlock C block = .ok config) :
    carried C alwaysCheckSig (before ++ [block]) = some config := by
  simp [carried, h]

theorem carried_concat_of_error {e} (h : configFromBlock C block = .error e) :
    carried C alwaysCheckSig (before ++ [block]) =
      if alwaysCheckSig then none else carried C alwaysCheckSig before := by
  simp [carried, h]

theorem verifyConfigs_spec {last result}
    (h : verifyConfigs C verifier alwaysCheckSig blocks (carried C alwaysCheckSig before) last =
      .ok result) :
    (∀ front block after, blocks = front ++ block :: after →
      (alwaysCheckSig = true ∨ IsConfig C block) →
      verifyBlockSignature C verifier block (carried C alwaysCheckSig (before ++ front)) = .ok ()) ∧
    result.1 = carried C alwaysCheckSig (before ++ blocks) ∧
    (∀ block, blocks.getLast? = some block → result.2 = true →
      alwaysCheckSig = true ∨ IsConfig C block) := by
  induction blocks generalizing before last with
  | nil =>
    cases h
    simp
  | cons first blocks ih =>
    -- The block is checked or skipped, and the loop goes on with what it carries.
    have hstep : (alwaysCheckSig = true ∨ IsConfig C first →
          verifyBlockSignature C verifier first (carried C alwaysCheckSig before) = .ok ()) ∧
        ∃ last', verifyConfigs C verifier alwaysCheckSig blocks
          (carried C alwaysCheckSig (before ++ [first])) last' = .ok result ∧
          (last' = true → alwaysCheckSig = true ∨ IsConfig C first) := by
      rw [verifyConfigs] at h
      cases hconfig : configFromBlock C first with
      | ok config =>
        simp only [hconfig, bind_eq_ok] at h
        obtain ⟨_, hcheck, hrest⟩ := h
        rw [carried_concat_of_config hconfig]
        exact ⟨fun _ => hcheck, true, hrest, fun _ => .inr ⟨config, hconfig⟩⟩
      | error e =>
        rw [carried_concat_of_error hconfig]
        simp only [hconfig] at h
        cases alwaysCheckSig with
        | true =>
          simp only [if_true, bind_eq_ok] at h
          obtain ⟨_, hcheck, hrest⟩ := h
          exact ⟨fun _ => hcheck, true, hrest, fun _ => .inl rfl⟩
        | false =>
          have hnot : ¬ IsConfig C first := by
            rintro ⟨_, hconfig'⟩
            rw [hconfig] at hconfig'
            cases hconfig'
          cases e with
          | notAConfig => exact ⟨by simp [hnot], false, h, by simp⟩
          | other => cases h
    obtain ⟨hfirst, _, hrest, hlast⟩ := hstep
    obtain ⟨hchecks, hcarried, hresult⟩ := ih hrest
    rw [append_assoc] at hcarried
    refine ⟨?_, hcarried, ?_⟩
    · intro front block after heq hneed
      cases front with
      | nil =>
        cases heq
        rw [append_nil]
        exact hfirst hneed
      | cons _ front =>
        obtain ⟨rfl, hblocks⟩ := cons.inj heq
        rw [show before ++ first :: front = before ++ [first] ++ front by simp]
        exact hchecks front block after hblocks hneed
    · intro block hblock htrue
      cases blocks with
      | nil =>
        cases hrest
        obtain rfl := Option.some.inj hblock
        exact hlast htrue
      | cons => exact hresult block hblock htrue

theorem verifyBlockSequence_spec
    (h : verifyBlockSequence C (before ++ block :: after) verifier alwaysCheckSig = .ok ()) :
    Linked C before.getLast? block ∧ (alwaysCheckSig = true ∨ IsConfig C block ∨ after = [] →
      verifyBlockSignature C verifier block (carried C alwaysCheckSig before) = .ok ()) := by
  simp only [verifyBlockSequence, bind_eq_ok, okOr_eq_ok] at h
  obtain ⟨last, hlast, _, hhashes, result, hconfigs, hfinal⟩ := h
  have hlinked := linked_of_verifyHashes hhashes
  rw [Option.or_none] at hlinked
  have hstart : verifyConfigs C verifier alwaysCheckSig (before ++ block :: after)
      (carried C alwaysCheckSig []) false = .ok result := hconfigs
  obtain ⟨hchecks, hcarried, hresult⟩ := verifyConfigs_spec hstart
  refine ⟨hlinked, fun hneed => ?_⟩
  by_cases hchecked : alwaysCheckSig = true ∨ IsConfig C block
  · exact hchecks before block after rfl hchecked
  -- What is left is the last block in CFT mode, which the code checks after the loop.
  obtain ⟨halways, hconfig⟩ := not_or.mp hchecked
  obtain rfl : after = [] := (hneed.resolve_left halways).resolve_left hconfig
  obtain rfl : block = last := by simpa using hlast
  have hfalse : result.2 ≠ true := fun htrue => hchecked (hresult block hlast htrue)
  rw [if_neg hfalse, hcarried, nil_append] at hfinal
  cases hread : configFromBlock C block with
  | ok config => exact absurd ⟨config, hread⟩ hconfig
  | error =>
    rw [carried_concat_of_error hread, if_neg halways] at hfinal
    exact hfinal

/-- In BFT mode a block that carries no configuration resets the carried one. -/
theorem carried_true_of_not_config (h : ¬ IsConfig C block) :
    carried C true (before ++ [block]) = none := by
  cases hread : configFromBlock C block with
  | ok config => exact absurd ⟨config, hread⟩ h
  | error => exact carried_concat_of_error hread

end

/-- A batch accepted in CFT mode has been checked with the configurations in force.  In BFT mode the
blocks that do not follow a config block directly are checked with the committed one. -/
theorem verifyBlocks_checked_iff (verifier : BlockVerifier ConfigEnvelope) (blocks : List Block) :
    (verifyBlocksCFT C blocks verifier = .ok () →
      ∀ before block after, blocks = before ++ block :: after →
        Linked C before.getLast? block ∧ (IsConfig C block ∨ after = [] →
          verifyBlockSignature C verifier block (configInForce C before) = .ok ())) ∧
    (verifyBlocksBFT C blocks verifier = .ok () →
      ((∀ before block after, blocks = before ++ block :: after →
          Linked C before.getLast? block ∧
          verifyBlockSignature C verifier block (configInForce C before) = .ok ()) ↔
        ∀ before prev block after, blocks = before ++ [prev] ++ block :: after →
          ¬ IsConfig C prev →
          verifyBlockSignature C verifier block (configInForce C (before ++ [prev])) =
            verifyBlockSignature C verifier block none)) := by
  refine ⟨?_, fun haccept => ⟨?_, ?_⟩⟩
  · rintro haccept before block after rfl
    obtain ⟨hlinked, hcheck⟩ := verifyBlockSequence_spec haccept
    exact ⟨hlinked, fun hneed => hcheck (.inr hneed)⟩
  · rintro hchecked before prev block after rfl hprev
    have hinForce := (hchecked (before ++ [prev]) block after rfl).2
    have hcode := (verifyBlockSequence_spec haccept).2 (.inl rfl)
    rw [carried_true_of_not_config hprev] at hcode
    rw [hinForce, hcode]
  · rintro hagree before block after rfl
    obtain ⟨hlinked, hcheck⟩ := verifyBlockSequence_spec haccept
    refine ⟨hlinked, ?_⟩
    have hcode := hcheck (.inl rfl)
    rcases eq_nil_or_concat before with rfl | ⟨front, prev, rfl⟩
    · exact hcode
    rw [concat_eq_append] at *
    by_cases hprev : IsConfig C prev
    · obtain ⟨_, hread⟩ := hprev
      rw [carried_concat_of_config hread] at hcode
      rw [configInForce, carried_concat_of_config hread]
      exact hcode
    · rw [carried_true_of_not_config hprev] at hcode
      rw [hagree front prev block after rfl hprev]
      exact hcode

/-- A transaction is its type and a configuration, metadata are one signature. -/
def plainCodec : Codec UInt8 where
  sha256 := id
  marshalHeader header := [UInt8.ofNat header.number]
  getEnvelopeFromBlock := .ok
  getPayload txn := .ok ⟨some (txn.take 1), txn.drop 1⟩
  unmarshalConfigEnvelope data := okOr data.head? "no config"
  unmarshalChannelHeaderType channelHeader := .ok (channelHeader.headD 0).toNat
  unmarshalMetadata metadata := .ok ⟨[], [⟨0, [], [], [], metadata⟩]⟩
  unmarshalCreator := .ok
  marshalSignatureHeader creator _ := creator

/-- A signature is valid under the configuration that it names. -/
def namedConfig : BlockVerifier UInt8 where
  verifyBlockSignature signatureSet config :=
    ensure (∀ sd ∈ signatureSet, sd.signature = [config.getD 0]) "wrong signature"
  id2Identity _ _ := []

def plainBlock (number : Nat) (txn : Bytes) (signature : UInt8) : Block where
  header := some ⟨number, [UInt8.ofNat (number - 1)], txn⟩
  data := some [txn]
  metadata := some [[signature]]

/-- The second block is not checked, the third under the configuration that the first carries. -/
theorem verifyBlocks_checked_iff_carried_config :
    configInForce plainCodec [plainBlock 1 [1, 7] 0, plainBlock 2 [3] 5] = some 7 ∧
    verifyBlockSignature plainCodec namedConfig (plainBlock 3 [3] 7)
      (configInForce plainCodec [plainBlock 1 [1, 7] 0, plainBlock 2 [3] 5]) = .ok () := by
  have haccept : verifyBlocksCFT plainCodec
      [plainBlock 1 [1, 7] 0, plainBlock 2 [3] 5, plainBlock 3 [3] 7] namedConfig = .ok () := by
    decide +kernel
  have hchecked := (verifyBlocks_checked_iff _ namedConfig _).1 haccept [_, _] _ [] rfl
  exact ⟨by decide +kernel, hchecked.2 (.inr rfl)⟩

/-- The third block is signed under the committed configuration 0, after a config block that has
put configuration 7 in its place. -/
theorem verifyBlocksBFT_accepts_old_config :
    verifyBlocksBFT plainCodec [plainBlock 1 [1, 7] 0, plainBlock 2 [3] 7, plainBlock 3 [3] 0]
      namedConfig = .ok () ∧
    configInForce plainCodec [plainBlock 1 [1, 7] 0, plainBlock 2 [3] 7] = some 7 ∧
    verifyBlockSignature plainCodec namedConfig (plainBlock 3 [3] 0) (some 7) =
      .error (.error "wrong signature") := by
  decide +kernel

end Loki.Fabric.Cluster
