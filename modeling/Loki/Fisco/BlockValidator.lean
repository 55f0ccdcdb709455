import Loki.Fisco.VoteWeight

/-!
# Synced blocks

What the validator checks of a block that comes in by block sync, and the signature list that a
stable checkpoint is committed with.  The validator adds the weight of a node once for each entry of
the list, and takes a block without transactions as it is.  The producer files a checkpoint message
under its own hash, and takes the signature of the proposal inside.
-/

namespace Loki.Fisco

open Finset PBFTConfig List PBFTEngine Option Prod PBFTMessage Nat

structure Block where
  number : Nat
  hash : HashType
  sealer : Nat := 0
  sealerList : List NodeID := []
  consensusWeights : List Nat := []
  signatureList : List (Nat × Signature) := []
  transactionsSize : Nat := 0

namespace BlockValidator

variable (config : PBFTConfig)

def checkSealerListAndWeightList (block : Block) : Bool :=
  (config.getConsensusNodeByIndex block.sealer).isSome &&
    block.sealerList == config.consensusNodeList.map (·.nodeID) &&
    block.consensusWeights == config.consensusNodeList.map (·.weight)

/-- One round of the loop of `checkSignatureList`. -/
def addSignature (hash : HashType) (signatureWeight : Nat) (sign : Nat × Signature) : Option Nat :=
  match config.getConsensusNodeByIndex sign.1 with
  | none => none
  | some nodeInfo =>
    if config.cryptoSuite.verify nodeInfo.nodeID hash sign.2 then
      some ((signatureWeight + nodeInfo.weight) % uint64)
    else none

def checkSignatureList (block : Block) : Bool :=
  match block.signatureList.foldlM (addSignature config block.hash) 0 with
  | none => false
  | some signatureWeight => config.minRequiredQuorum ≤ signatureWeight

def asyncCheckBlock (block : Block) : Bool :=
  if block.number = 0 then true
  else if block.number ≤ config.committedProposal.index then false
  else if block.transactionsSize = 0 then true
  else checkSealerListAndWeightList config block && checkSignatureList config block

def Verifies (hash : HashType) (sign : Nat × Signature) : Prop :=
  ∃ node ∈ config.consensusNodeList[sign.1]?,
    config.cryptoSuite.verify node.nodeID hash sign.2 = true

instance (hash : HashType) (sign : Nat × Signature) : Decidable (Verifies config hash sign) :=
  inferInstanceAs (Decidable (∃ node ∈ _, _))

def signers (block : Block) : Finset Nat :=
  ((block.signatureList.filter fun sign => Verifies config block.hash sign).map fst).toFinset

def CarriesQuorum (block : Block) : Prop :=
  config.minRequiredQuorum ≤ ∑ i ∈ signers config block, nodeWeight config.consensusNodeList i

def namedWeight (block : Block) : Nat :=
  ∑ i ∈ (block.signatureList.map fst).toFinset, nodeWeight config.consensusNodeList i

variable {config} {block : Block} {hash : HashType}

theorem addSignature_eq_some_iff {weight total} {sign : Nat × Signature} :
    addSignature config hash weight sign = some total ↔ Verifies config hash sign ∧
      (weight + nodeWeight config.consensusNodeList sign.1) % uint64 = total := by
  unfold addSignature Verifies nodeWeight getConsensusNodeByIndex
  cases config.consensusNodeList[sign.1]? with
  | none | some => simp

theorem foldlM_addSignature_eq_some_iff (signatures : List (Nat × Signature)) {weight total}
    (hweight : weight < uint64) :
    signatures.foldlM (addSignature config hash) weight = some total ↔
      (∀ sign ∈ signatures, Verifies config hash sign) ∧ (weight +
        ((signatures.map fst).map (nodeWeight config.consensusNodeList)).sum) % uint64 =
          total := by
  induction signatures generalizing weight with
  | nil => simp [mod_eq_of_lt hweight]
  | cons _ _ ih =>
    simp only [foldlM_cons, bind_eq_bind, bind_eq_some_iff,
      addSignature_eq_some_iff, List.forall_mem_cons, List.map_cons, List.sum_cons]
    constructor
    · rintro ⟨_, ⟨hsign, rfl⟩, hrest⟩
      rw [ih (mod_lt _ (by decide)), mod_add_mod, add_assoc] at hrest
      exact ⟨⟨hsign, hrest.1⟩, hrest.2⟩
    · rintro ⟨⟨hsign, hrest⟩, htotal⟩
      refine ⟨_, ⟨hsign, rfl⟩, ?_⟩
      rw [ih (mod_lt _ (by decide)), mod_add_mod, add_assoc]
      exact ⟨hrest, htotal⟩

theorem checkSignatureList_iff : checkSignatureList config block = true ↔
    (∀ sign ∈ block.signatureList, Verifies config block.hash sign) ∧
      config.minRequiredQuorum ≤ ((block.signatureList.map fst).map
        (nodeWeight config.consensusNodeList)).sum % uint64 := by
  have hfold total := @foldlM_addSignature_eq_some_iff config block.hash
    block.signatureList 0 total (by decide)
  unfold checkSignatureList
  cases hloop : block.signatureList.foldlM (addSignature config block.hash) 0 with
  | none =>
    refine iff_of_false (by simp) fun h => ?_
    have hsome := (hfold _).mpr ⟨h.1, rfl⟩
    simp [hloop] at hsome
  | some weight =>
    obtain ⟨hverifies, rfl⟩ := (hfold weight).mp hloop
    simp only [decide_eq_true_eq, zero_add, and_iff_right hverifies]

section

variable (h : checkSignatureList config block = true)

include h

theorem signers_eq : signers config block = (block.signatureList.map fst).toFinset := by
  have hall : block.signatureList.filter (fun sign => Verifies config block.hash sign) =
      block.signatureList :=
    filter_eq_self.mpr fun sign hsign => by
      simpa using (checkSignatureList_iff.mp h).1 sign hsign
  rw [signers, hall]

theorem carriesQuorum_iff :
    CarriesQuorum config block ↔ config.minRequiredQuorum ≤ namedWeight config block := by
  rw [CarriesQuorum, signers_eq h, namedWeight]

theorem le_namedWeight_of_nodup (hnodup : (block.signatureList.map fst).Nodup) :
    config.minRequiredQuorum ≤ namedWeight config block := by
  rw [namedWeight, sum_toFinset _ hnodup]
  exact (checkSignatureList_iff.mp h).2.trans (mod_le _ _)

end

theorem minRequiredQuorum_pos (config : PBFTConfig) : 0 < config.minRequiredQuorum := by
  unfold minRequiredQuorum maxFaultyQuorum
  unfold uint64 at *
  omega

theorem asyncCheckBlock_of_empty (hnumber : config.committedProposal.index < block.number)
    (hempty : block.transactionsSize = 0) : asyncCheckBlock config block = true := by
  simp [asyncCheckBlock, hempty, hnumber]

theorem asyncCheckBlock_of_nonempty (hnumber : config.committedProposal.index < block.number)
    (hnonempty : 0 < block.transactionsSize) : asyncCheckBlock config block =
      (checkSealerListAndWeightList config block && checkSignatureList config block) := by
  have hpos : block.number ≠ 0 := by omega
  simp [asyncCheckBlock, hpos, hnumber, hnonempty.ne']

theorem checkSignatureList_congr {config'}
    (hnodes : config'.consensusNodeList = config.consensusNodeList)
    (hsuite : config'.cryptoSuite = config.cryptoSuite) :
    checkSignatureList config' block = checkSignatureList config block := by
  rw [Bool.eq_iff_iff, checkSignatureList_iff, checkSignatureList_iff]
  unfold Verifies minRequiredQuorum maxFaultyQuorum totalQuorum
  rw [hnodes, hsuite]

end BlockValidator

/-! ### The signatures of a stable checkpoint -/

open BlockValidator

def CryptoSuite.VerifiesOwn (suite : CryptoSuite) : Prop :=
  ∀ key hash, suite.verify key hash (suite.sign key hash) = true

def PBFTMessage.signatureProof (msg : PBFTMessage) : Nat × Signature :=
  (msg.generatedFrom, (msg.consensusProposal.bind (·.signature)).getD 0)

namespace VoteCache

variable {config : PBFTConfig} {votes : VoteCache} {msg : PBFTMessage}

theorem signatureList_eq_map (hash : HashType) :
    votes.signatureList hash = (votes.cachedReq.filter (·.hash = hash)).map signatureProof := by
  unfold signatureList
  induction votes.cachedReq with
  | nil => rfl
  | cons req _ ih =>
    by_cases h : req.hash = hash
    · simp [h, ih, signatureProof]
    · simp [h, ih]

theorem map_fst_signatureList (hash : HashType) :
    (votes.signatureList hash).map fst = votes.senders hash := by
  rw [signatureList_eq_map, List.map_map]
  rfl

/-- Every cached vote holds its sender's signature of the hash it is filed under. -/
structure Signed (config : PBFTConfig) (votes : VoteCache) : Prop where
  exact : votes.Exact config.consensusNodeList
  verifies : ∀ req ∈ votes.cachedReq, Verifies config req.hash req.signatureProof

theorem Signed.addCache (h : Signed config votes) (index : Nat)
    (hmsg : msg.generatedFrom < config.consensusNodeList.length →
      Verifies config msg.hash msg.signatureProof) :
    Signed config (votes.addCache config index msg) := by
  refine ⟨h.exact.addCache index msg, ?_⟩
  rcases addCache_cases config index votes msg with ⟨heq, -⟩ | ⟨-, -, hlt, heq⟩
  · rw [heq]
    exact h.verifies
  · rw [heq]
    intro req hreq
    rcases mem_cons.mp ((perm_orderedInsert _ _ _).mem_iff.mp hreq) with rfl | hreq
    · exact hmsg hlt
    · exact h.verifies req hreq

theorem Signed.congr (h : Signed config votes) {config'}
    (hnodes : config'.consensusNodeList = config.consensusNodeList)
    (hsuite : config'.cryptoSuite = config.cryptoSuite) : Signed config' votes := by
  obtain ⟨hexact, hverifies⟩ := h
  unfold Verifies at hverifies
  rw [← hnodes] at hexact
  rw [← hnodes, ← hsuite] at hverifies
  exact ⟨hexact, hverifies⟩

theorem Signed.checkSignatureList (h : Signed config votes) {block}
    (henough : votes.collectEnoughQuorum config block.hash = true)
    (hlist : block.signatureList = votes.signatureList block.hash) :
    checkSignatureList config block = true := by
  refine checkSignatureList_iff.mpr ⟨fun _ hsign => ?_, ?_⟩
  · rw [hlist, signatureList_eq_map] at hsign
    obtain ⟨req, hreq, rfl⟩ := mem_map.mp hsign
    obtain ⟨hmem, hhash⟩ := mem_filter.mp hreq
    rw [← of_decide_eq_true hhash]
    exact h.verifies req hmem
  · rw [hlist, map_fst_signatureList, ← h.exact.weight]
    unfold collectEnoughQuorum at henough
    cases hweight : votes.weightInfo[block.hash]? with
    | none => simp [hweight] at henough
    | some => simpa [hweight] using henough

end VoteCache

def PBFTProposal.committedBlock (stable : PBFTProposal) : Block where
  number := stable.index
  hash := stable.hash
  signatureList := stable.signatureProof

namespace Tally

/-- A checkpoint message is the node's own, or passes the check of `handleCheckPointMsg` on the
proposal it carries.  The suite of a node stays as it is. -/
def AcceptsCheckPoint (t : Tally) : CacheEvent → Prop
  | .checkPoint msg =>
    (∃ executed, msg = checkPointReq { config := t.config } executed) ∨
      checkProposalSignature { config := t.config } msg.generatedFrom
        msg.consensusProposal = true
  | .configure config => config.cryptoSuite = t.config.cryptoSuite
  | _ => True

def BindsCheckPoint (t : Tally) : CacheEvent → Prop
  | .checkPoint msg => ∀ proposal ∈ msg.consensusProposal, proposal.hash = msg.hash
  | .configure config => config.consensusNodeList = t.config.consensusNodeList
  | _ => True

theorem verifies_of_checkProposalSignature {config} {msg : PBFTMessage}
    (hcheck : checkProposalSignature { config := config } msg.generatedFrom
      msg.consensusProposal = true)
    (hbinds : ∀ proposal ∈ msg.consensusProposal, proposal.hash = msg.hash) :
    Verifies config msg.hash msg.signatureProof := by
  unfold checkProposalSignature checkSignature at hcheck
  unfold Verifies signatureProof
  cases hproposal : msg.consensusProposal with
  | none => simp [hproposal] at hcheck
  | some proposal =>
    have hhash := hbinds proposal hproposal
    cases hsignature : proposal.signature with
    | none => simp [hproposal, hsignature] at hcheck
    | some =>
      simp only [hproposal, hsignature, bind_some, map_some, hhash,
        getConsensusNodeByIndex] at hcheck
      cases hnode : config.consensusNodeList[msg.generatedFrom]? with
      | none => simp [hnode] at hcheck
      | some node => exact ⟨node, rfl, by simpa [hnode, hsignature] using hcheck⟩

theorem verifies_checkPointReq {config} (hsign : config.cryptoSuite.VerifiesOwn)
    (hlength : config.consensusNodeList.length ≤ nonConsensusNode) (executed : PBFTProposal)
    (hlt : config.nodeIndex < config.consensusNodeList.length) :
    Verifies config executed.hash (checkPointReq { config := config } executed).signatureProof := by
  cases hfound : config.consensusNodeList.findIdx? fun node => node.nodeID == config.nodeID with
  | none =>
    have hnone : config.nodeIndex = nonConsensusNode := by simp [nodeIndex, hfound]
    omega
  | some i =>
    have hindex : config.nodeIndex = i := by simp [nodeIndex, hfound]
    obtain ⟨hi, hid, -⟩ := findIdx?_eq_some_iff_getElem.mp hfound
    refine ⟨config.consensusNodeList[i], ?_, ?_⟩
    · change config.consensusNodeList[config.nodeIndex]? = _
      rw [hindex, getElem?_eq_getElem hi]
    · rw [beq_iff_eq.mp hid]
      exact hsign config.nodeID executed.hash

theorem step_checkpointCacheList (t : Tally) (event) :
    (t.step event).cache.checkpointCacheList = t.cache.checkpointCacheList ∨
      ∃ msg, event = .checkPoint msg := by
  cases event with
  | prePrepare msg =>
    rcases PBFTCache.addPrePrepareCache_cases t.cache msg with ⟨heq, -⟩ | heq
    · simp [step, heq]
    · simp [step, heq]
  | checkPoint msg => exact .inr ⟨msg, rfl⟩
  | preCommit =>
    left
    simp only [step]
    cases t.cache.readyToPreCommit t.config with
    | none => rfl
    | some =>
      simp only [PBFTCache.preCommitted]
      split <;> rfl
  | checkAndCommit =>
    left
    simp only [step]
    cases h : (t.cache.checkAndCommit t.config).2 with
    | false => rw [checkAndCommit_eq_false h]
    | true => rw [(checkAndCommit_eq_true h).1]
  | setCheckPointProposal =>
    left
    simp only [step, PBFTCache.setCheckPointProposal]
    split
    · rfl
    split <;> rfl
  | checkAndCommitStableCheckPoint =>
    left
    simp only [step, PBFTCache.checkAndCommitStableCheckPoint]
    split
    · rfl
    split <;> rfl
  | prepare | commit | resetCache | configure => exact .inl rfl

/-- The node list and the suite are as at the start, and the checkpoint messages are signed. -/
structure SignedFor (config : PBFTConfig) (t : Tally) : Prop where
  nodeList : t.config.consensusNodeList = config.consensusNodeList
  suite : t.config.cryptoSuite = config.cryptoSuite
  signed : t.cache.checkpointCacheList.Signed config

namespace SignedFor

variable {config : PBFTConfig} {t : Tally} {event : CacheEvent}

theorem start (config) (index : Nat) : SignedFor config (.start config index) where
  nodeList := rfl
  suite := rfl
  signed := ⟨.empty _, by simp [Tally.start]⟩

section

variable (h : SignedFor config t)

include h

theorem step_config (haccepts : t.AcceptsCheckPoint event) (hbinds : t.BindsCheckPoint event) :
    (t.step event).config.consensusNodeList = config.consensusNodeList ∧
      (t.step event).config.cryptoSuite = config.cryptoSuite := by
  cases event with
  | configure => exact ⟨hbinds.trans h.nodeList, haccepts.trans h.suite⟩
  | preCommit =>
    simp only [step]
    cases t.cache.readyToPreCommit t.config <;> exact ⟨h.nodeList, h.suite⟩
  | _ => exact ⟨h.nodeList, h.suite⟩

section

variable (hsign : config.cryptoSuite.VerifiesOwn)
  (hlength : config.consensusNodeList.length ≤ nonConsensusNode)

include hsign hlength

theorem verifies {msg} (haccepts : t.AcceptsCheckPoint (.checkPoint msg))
    (hbinds : t.BindsCheckPoint (.checkPoint msg))
    (hlt : msg.generatedFrom < t.config.consensusNodeList.length) :
    Verifies t.config msg.hash msg.signatureProof := by
  rcases haccepts with ⟨executed, rfl⟩ | hcheck
  · rw [← h.suite] at hsign
    rw [← h.nodeList] at hlength
    exact verifies_checkPointReq hsign hlength executed hlt
  · exact verifies_of_checkProposalSignature hcheck hbinds

theorem step (haccepts : t.AcceptsCheckPoint event) (hbinds : t.BindsCheckPoint event) :
    SignedFor config (t.step event) := by
  obtain ⟨hnodes, hsuite⟩ := h.step_config haccepts hbinds
  refine ⟨hnodes, hsuite, ?_⟩
  rcases step_checkpointCacheList t event with heq | ⟨_, rfl⟩
  · rw [heq]
    exact h.signed
  · have hsigned : t.cache.checkpointCacheList.Signed t.config :=
      h.signed.congr h.nodeList h.suite
    refine VoteCache.Signed.congr ?_ h.nodeList.symm h.suite.symm
    exact hsigned.addCache t.cache.index (h.verifies hsign hlength haccepts hbinds)

end

theorem assembled (hbefore : t.cache.stableCommitted = false)
    (hafter : (t.cache.checkAndCommitStableCheckPoint t.config).1.stableCommitted = true) {stable}
    (hstable : (t.cache.checkAndCommitStableCheckPoint t.config).1.checkpointProposal =
      some stable) : checkSignatureList t.config stable.committedBlock = true := by
  have hsigned : t.cache.checkpointCacheList.Signed t.config := h.signed.congr h.nodeList h.suite
  unfold PBFTCache.checkAndCommitStableCheckPoint at hafter hstable
  cases hproposal : t.cache.checkpointProposal with
  | none => simp [hproposal, hbefore] at hafter
  | some proposal =>
    simp only [hproposal, hbefore, Bool.false_or] at hafter hstable
    split at hafter
    · simp [hbefore] at hafter
    next henough =>
      rw [if_neg henough] at hstable
      obtain rfl := some.inj hstable
      have hquorum : t.cache.checkpointCacheList.collectEnoughQuorum t.config proposal.hash =
          true := by simpa using henough
      exact hsigned.checkSignatureList hquorum rfl

end

end SignedFor

end Tally

instance (config : PBFTConfig) (block : Block) : Decidable (CarriesQuorum config block) :=
  inferInstanceAs (Decidable (_ ≤ _))

/-- A block that is taken carries a quorum if it has transactions and its list names different
nodes of enough weight.  The checkpoints that a node assembles pass on the nodes with its list, if
checkpoint messages have the hash of their proposal and the list is kept. -/
theorem syncedBlock_carriesQuorum_iff (config : PBFTConfig) (block : Block) (index : Nat)
    (events : List CacheEvent) :
    (config.committedProposal.index < block.number →
      ((∀ signatures, asyncCheckBlock config { block with signatureList := signatures } = true →
          CarriesQuorum config { block with signatureList := signatures }) →
        0 < block.transactionsSize) ∧
      (0 < block.transactionsSize → asyncCheckBlock config block = true →
        (CarriesQuorum config block ↔ config.minRequiredQuorum ≤ namedWeight config block) ∧
        ((block.signatureList.map fst).Nodup → CarriesQuorum config block))) ∧
    (config.cryptoSuite.VerifiesOwn →
      config.consensusNodeList.length ≤ nonConsensusNode →
      Foundation.Along Tally.step
        (fun t event => t.AcceptsCheckPoint event ∧ t.BindsCheckPoint event)
        (.start config index) events →
      ((Tally.start config index).run events).cache.stableCommitted = false →
      (((Tally.start config index).run events).cache.checkAndCommitStableCheckPoint
        ((Tally.start config index).run events).config).1.stableCommitted = true →
      ∀ stable ∈ (((Tally.start config index).run events).cache.checkAndCommitStableCheckPoint
          ((Tally.start config index).run events).config).1.checkpointProposal,
        ∀ config', config'.cryptoSuite = config.cryptoSuite →
          config'.consensusNodeList = config.consensusNodeList →
          checkSignatureList config' stable.committedBlock = true) := by
  refine ⟨fun hnumber => ⟨fun hall => ?_, fun hnonempty haccepted => ?_⟩, ?_⟩
  · by_contra hempty
    have hcarries := hall [] (asyncCheckBlock_of_empty hnumber (Nat.eq_zero_of_not_pos hempty))
    exact absurd hcarries (not_le.mpr (minRequiredQuorum_pos config))
  · rw [asyncCheckBlock_of_nonempty hnumber hnonempty, Bool.and_eq_true] at haccepted
    have hiff := carriesQuorum_iff haccepted.2
    exact ⟨hiff, fun hnodup => hiff.mpr (le_namedWeight_of_nodup haccepted.2 hnodup)⟩
  · intro hsign hlength halong hbefore hafter _ hstable _ hsuite hnodes
    have hrun : Tally.SignedFor config ((Tally.start config index).run events) :=
      halong.invariant (fun t _ ht hC => ht.step hsign hlength hC.1 hC.2) (.start config index)
    rw [checkSignatureList_congr (hnodes.trans hrun.nodeList.symm) (hsuite.trans hrun.suite.symm)]
    exact hrun.assembled hbefore hafter hstable

/-- The checkpoint of node `0` and those it takes from two others. -/
def checkPointEvents : List CacheEvent :=
  [.setCheckPointProposal { index := 3, hash := 111 },
    .checkPoint (checkPointReq { config := (startNode 0).config } { index := 3, hash := 111 }),
    .checkPoint (voteOf .checkPoint 1 0 3 111), .checkPoint (voteOf .checkPoint 3 0 3 111)]

def blockOfFour (signed : List Nat) : Block where
  number := 3
  hash := 11
  sealerList := [0, 1, 2, 3]
  consensusWeights := [1, 1, 1, 1]
  signatureList := signed.map fun node => (node, pairingSuite.sign node 11)
  transactionsSize := 1

theorem syncedBlock_carriesQuorum_iff_fourNodes :
    CarriesQuorum (startNode 0).config (blockOfFour [1, 2, 3]) ∧
    ∃ stable ∈ (((Tally.start (startNode 0).config 3).run
        checkPointEvents).cache.checkAndCommitStableCheckPoint
          (startNode 0).config).1.checkpointProposal,
      checkSignatureList (startNode 1).config stable.committedBlock = true := by
  obtain ⟨hvalidator, hproducer⟩ := syncedBlock_carriesQuorum_iff (startNode 0).config
    (blockOfFour [1, 2, 3]) 3 checkPointEvents
  refine ⟨((hvalidator (by decide)).2 (by decide) (by decide +kernel)).2 (by decide), _, rfl, ?_⟩
  refine hproducer (fun _ _ => beq_self_eq_true _) (by decide) ?_ (by decide +kernel)
    (by decide +kernel) _ rfl _ rfl rfl
  exact ⟨⟨trivial, trivial⟩, ⟨.inl ⟨_, rfl⟩, by rintro _ ⟨⟩; rfl⟩,
    ⟨.inr (by decide +kernel), by rintro _ ⟨⟩; rfl⟩,
    ⟨.inr (by decide +kernel), by rintro _ ⟨⟩; rfl⟩, trivial⟩

/-- Node `0` executes block `3` and takes the checkpoints of two others. -/
def checkPointsOf (checkPoint checkPoint' : PBFTMessage) : List Input :=
  [.message (.pbft (prePrepareOf 3 0 3 11)), .verified 0 true,
    .message (.pbft (voteOf .preparePacket 1 0 3 11)),
    .message (.pbft (voteOf .preparePacket 3 0 3 11)),
    .message (.pbft (voteOf .commitPacket 1 0 3 11)),
    .message (.pbft (voteOf .commitPacket 3 0 3 11)),
    .executed 0 (some { index := 3, hash := 111 }), .applied,
    .message (.pbft checkPoint), .message (.pbft checkPoint')]

/-- A checkpoint of node `3` for one hash, with its signature of another one. -/
def unboundCheckPoint : PBFTMessage :=
  { voteOf .checkPoint 3 0 3 111 with
    consensusProposal := (voteOf .checkPoint 3 0 3 112).consensusProposal }

/-- A block without transactions and without signatures is taken, and so is one with three copies
of a signature.  A node stores a checkpoint whose signatures no validator takes. -/
theorem syncedBlock_without_quorum :
    (asyncCheckBlock (startNode 0).config { number := 3, hash := 11 } = true ∧
      ¬ CarriesQuorum (startNode 0).config { number := 3, hash := 11 }) ∧
    (asyncCheckBlock (startNode 0).config (blockOfFour [2, 2, 2]) = true ∧
      ¬ CarriesQuorum (startNode 0).config (blockOfFour [2, 2, 2])) ∧
    (∃ stable ∈ ((startNode 0).run
        (checkPointsOf (voteOf .checkPoint 1 0 3 111) unboundCheckPoint)).stored,
      checkSignatureList (startNode 1).config stable.committedBlock = false) := by
  decide +kernel

end Loki.Fisco
