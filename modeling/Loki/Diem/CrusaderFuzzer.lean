import Loki.Diem.CommitPhase
import Loki.Diem.RoundState
import Loki.Diem.SafetyRules.Metrics
import Loki.Diem.SafetyRules.Certified

/-!
# The fuzzing loop

`consensus/src/crusader_fuzzer.rs`, and the queue of messages that `consensus/src/epoch_manager.rs`
keeps for it.  One iteration takes a message of the queue, mutates it and sends it to the others.
What the random generator draws is an argument.  Arithmetic is checked, and `unwrap` panics.
-/

namespace Loki.Diem

open Loki.Foundation SafetyRules

structure ProposalMsg where
  proposal : Block
  syncInfo : SyncInfo
  deriving DecidableEq

structure VoteMsg where
  vote : Vote
  syncInfo : SyncInfo
  deriving DecidableEq

/-- Messages of the network.  What is asked for and answered in retrievals is not looked at here. -/
inductive ConsensusMsg where
  | blockRetrievalRequest
  | blockRetrievalResponse
  | epochRetrievalRequest
  | proposalMsg (msg : ProposalMsg)
  | syncInfo (info : SyncInfo)
  | epochChangeProof (proof : EpochChangeProof)
  | voteMsg (msg : VoteMsg)
  | commitVoteMsg (vote : CommitVote)
  | commitDecisionMsg (decision : CommitDecision)
  deriving DecidableEq

/-- What `process_epoch` does to the queue when a message comes in, before the message is
verified. -/
def pushLastMsg (lastMsg : List ConsensusMsg) (msg : ConsensusMsg) : List ConsensusMsg :=
  match msg with
  | .proposalMsg _ | .syncInfo _ | .voteMsg _ | .commitVoteMsg _ | .commitDecisionMsg _ =>
    if lastMsg.length > 10 then lastMsg.tail ++ [msg] else lastMsg ++ [msg]
  | _ => lastMsg

def BlockData.newProposal (payload : Payload) (author : Author) (round timestampUsecs : Nat)
    (quorumCert : QuorumCert) : BlockData where
  epoch := quorumCert.certifiedBlock.epoch
  round := round
  timestampUsecs := timestampUsecs
  quorumCert := quorumCert
  blockType := .proposal payload author

/-! ## Mutations -/

structure ProposalDraws where
  temp4 : Nat
  temp : Nat

structure BlockInfoDraws where
  temp1 : Nat
  temp2 : Nat
  temp3 : Nat
  temp4 : Nat

variable (modulus value temp : Nat) (timestampUsecs temp4 : Nat)

def mutateTimestamp : Outcome Nat :=
  if temp4 % 4 = 0 then checkedAdd u64Bound timestampUsecs (temp4 % 10000)
  else if temp4 % 4 = 1 ∧ timestampUsecs > 10000 then checkedSub timestampUsecs (temp4 % 10000)
  else if temp4 % 4 = 2 then checkedAdd u64Bound timestampUsecs (temp4 % 100)
  else pure timestampUsecs

def mutateRound (round temp : Nat) : Outcome Nat :=
  if temp % 3 = 0 then checkedAdd u64Bound round 10
  else if temp % 3 = 1 ∧ round > 10 then checkedSub round 10
  else if temp % 3 = 2 then pure temp
  else pure round

/-- The mutation of one number of a `BlockInfo`. -/
def mutateField : Outcome Nat :=
  if temp % 4 = 0 then checkedAdd u64Bound value (temp % modulus)
  else if temp % 4 = 1 ∧ value > modulus then checkedSub value (temp % modulus)
  else if temp % 4 = 2 then pure temp
  else pure value

def mutateBlockInfo (info : BlockInfo) (draws : BlockInfoDraws) : Outcome BlockInfo := do
  let epoch ← mutateField 10 info.epoch draws.temp1
  let round ← mutateField 10 info.round draws.temp2
  let version ← mutateField 10 info.version draws.temp3
  let timestampUsecs ← mutateField 10000 info.timestampUsecs draws.temp4
  pure { info with
    epoch := epoch, round := round, version := version, timestampUsecs := timestampUsecs }

structure VoteDraws where
  proposed : BlockInfoDraws
  parent : BlockInfoDraws
  commit : BlockInfoDraws

section

variable (C : Crypto) (proofs : EpochProofs)

def mutateVote (msg : VoteMsg) (draws : VoteDraws) : Outcome VoteMsg := do
  let newPropose ← mutateBlockInfo msg.vote.voteData.proposed draws.proposed
  let newParent ← mutateBlockInfo msg.vote.voteData.parent draws.parent
  let newCommit ← mutateBlockInfo msg.vote.ledgerInfo.commitInfo draws.commit
  let voteData : VoteData := { proposed := newPropose, parent := newParent }
  let ledgerInfo : LedgerInfo := { commitInfo := newCommit, consensusDataHash := voteData.hash C }
  pure {
    vote := .newWithSignature voteData msg.vote.author ledgerInfo msg.vote.signature
    syncInfo := msg.syncInfo }

/-- `safety_rules.lock().sign_proposal(&block_data).unwrap()`. -/
def signProposalUnwrap (rules : SafetyRules) (data : BlockData) :
    Outcome (Signature × SafetyRules) :=
  match (retry C proofs (signProposal C data)).exec rules with
  | (.ok signature, rules) => pure (signature, rules)
  | (.error (.error _), _) => .error (.panic "called `Result::unwrap()` on an `Err` value")
  | (.error (.panic message), _) => .error (.panic message)

def mutateProposal (rules : SafetyRules) (author : Author) (msg : ProposalMsg)
    (draws : ProposalDraws) : Outcome (ProposalMsg × SafetyRules) := do
  let timestampUsecs ← mutateTimestamp msg.proposal.timestampUsecs draws.temp4
  let round ← mutateRound msg.proposal.round draws.temp
  let payload ← okOr msg.proposal.blockData.payload
    (.panic "called `Option::unwrap()` on a `None` value")
  let data := BlockData.newProposal payload author round timestampUsecs msg.proposal.quorumCert
  let (signature, rules) ← signProposalUnwrap C proofs rules data
  pure ({ proposal := { blockData := data, signature := some signature }
          syncInfo := msg.syncInfo }, rules)

/-! ## The loop -/

structure Draws where
  choice : Nat
  proposal : ProposalDraws
  vote : VoteDraws

structure Iteration where
  lastMsg : List ConsensusMsg
  rules : SafetyRules
  sent : Option ConsensusMsg

variable (lastMsg : List ConsensusMsg) (rules : SafetyRules) (author : Author) (draws : Draws)

def chosenMsg : Option ConsensusMsg := lastMsg[draws.choice % lastMsg.length]?

/-- The message is mutated; there is none to send for a kind that the loop does not handle. -/
def mutateMsg (msg : ConsensusMsg) : Outcome (Option ConsensusMsg × SafetyRules) :=
  match msg with
  | .proposalMsg m => do
    let (proposal, rules) ← mutateProposal C proofs rules author m draws.proposal
    pure (some (.proposalMsg proposal), rules)
  | .voteMsg m => do
    let voteMsg ← mutateVote C m draws.vote
    pure (some (.voteMsg voteMsg), rules)
  | .syncInfo m => pure (some (.syncInfo m), rules)
  | .commitVoteMsg m => pure (some (.commitVoteMsg m), rules)
  | .commitDecisionMsg m => pure (some (.commitDecisionMsg m), rules)
  | _ => pure (none, rules)

/-- One iteration of `start_fuzzer`. -/
def fuzzOnce : Outcome Iteration :=
  match chosenMsg lastMsg draws with
  | none => pure { lastMsg := lastMsg, rules := rules, sent := none }
  | some msg => do
    let (sent, rules) ← mutateMsg C proofs rules author draws msg
    -- a kind that is not handled goes on with the next iteration at once
    let lastMsg := if sent.isSome ∧ lastMsg.length > 10 then [] else lastMsg
    pure { lastMsg := lastMsg, rules := rules, sent := sent }

end

/-! ## When an iteration returns -/

def TimestampFits : Prop :=
  (temp4 % 4 = 0 → timestampUsecs + temp4 % 10000 < u64Bound) ∧
    (temp4 % 4 = 2 → timestampUsecs + temp4 % 100 < u64Bound)

def RoundFits (round temp : Nat) : Prop := temp % 3 = 0 → round + 10 < u64Bound

def FieldFits : Prop := temp % 4 = 0 → value + temp % modulus < u64Bound

structure BlockInfoFits (info : BlockInfo) (draws : BlockInfoDraws) : Prop where
  epoch : FieldFits 10 info.epoch draws.temp1
  round : FieldFits 10 info.round draws.temp2
  version : FieldFits 10 info.version draws.temp3
  timestampUsecs : FieldFits 10000 info.timestampUsecs draws.temp4

/-- A proposal that the loop can mutate: sums that are made stay in range, the block has a payload,
and the rules sign for the author in the epoch of its certificate. -/
structure ProposalFits (C : Crypto) (proofs : EpochProofs) (rules : SafetyRules) (author : Author)
    (msg : ProposalMsg) (draws : ProposalDraws) : Prop where
  timestampUsecs : TimestampFits msg.proposal.timestampUsecs draws.temp4
  round : RoundFits msg.proposal.round draws.temp
  payload : ∃ payload proposer, msg.proposal.blockData.blockType = .proposal payload proposer
  signed : rules.SignsFor C author msg.proposal.quorumCert.certifiedBlock.epoch ∨
    rules.Recovers C proofs author msg.proposal.quorumCert.certifiedBlock.epoch

structure VoteFits (msg : VoteMsg) (draws : VoteDraws) : Prop where
  proposed : BlockInfoFits msg.vote.voteData.proposed draws.proposed
  parent : BlockInfoFits msg.vote.voteData.parent draws.parent
  commit : BlockInfoFits msg.vote.ledgerInfo.commitInfo draws.commit

def MsgFits (C : Crypto) (proofs : EpochProofs) (rules : SafetyRules) (author : Author)
    (draws : Draws) : ConsensusMsg → Prop
  | .proposalMsg m => ProposalFits C proofs rules author m draws.proposal
  | .voteMsg m => VoteFits m draws.vote
  | _ => True

theorem mutateTimestamp_isOk {timestampUsecs temp4} :
    (∃ value, mutateTimestamp timestampUsecs temp4 = .ok value) ↔
      TimestampFits timestampUsecs temp4 := by
  unfold mutateTimestamp TimestampFits
  repeat' split
  all_goals
    simp
    omega

theorem mutateRound_isOk {round temp} :
    (∃ value, mutateRound round temp = .ok value) ↔ RoundFits round temp := by
  unfold mutateRound RoundFits
  repeat' split
  all_goals
    simp
    omega

theorem mutateField_isOk {modulus value temp} (hpos : 0 < modulus) :
    (∃ value', mutateField modulus value temp = .ok value') ↔ FieldFits modulus value temp := by
  have hlt : temp % modulus < modulus := Nat.mod_lt _ hpos
  unfold mutateField FieldFits
  repeat' split
  all_goals
    simp
    omega

section

variable {ε α β : Type} {x : Except ε α} {f : α → Except ε β} {a : α}

@[simp] theorem pure_isOk : ∃ b, (pure a : Except ε α) = .ok b := ⟨a, rfl⟩

theorem bind_isOk : (∃ b, (x >>= f) = .ok b) ↔ ∃ a, x = .ok a ∧ ∃ b, f a = .ok b := by
  cases x <;> simp [bind, Except.bind]

end

theorem mutateBlockInfo_isOk {info draws} :
    (∃ info', mutateBlockInfo info draws = .ok info') ↔ BlockInfoFits info draws := by
  have hten : 0 < 10 := by decide
  simp only [mutateBlockInfo, bind_isOk, pure_isOk, and_true, exists_and_right,
    mutateField_isOk hten, mutateField_isOk (show 0 < 10000 by decide)]
  constructor
  · rintro ⟨hepoch, hround, hversion, htimestamp⟩
    exact ⟨hepoch, hround, hversion, htimestamp⟩
  · intro h
    exact ⟨h.epoch, h.round, h.version, h.timestampUsecs⟩

variable {C : Crypto} {proofs : EpochProofs} {rules : SafetyRules} {author : Author}

theorem mutateVote_isOk {msg draws} :
    (∃ msg', mutateVote C msg draws = .ok msg') ↔ VoteFits msg draws := by
  simp only [mutateVote, bind_isOk, pure_isOk, and_true, exists_and_right, mutateBlockInfo_isOk]
  constructor
  · rintro ⟨hproposed, hparent, hcommit⟩
    exact ⟨hproposed, hparent, hcommit⟩
  · intro h
    exact ⟨h.proposed, h.parent, h.commit⟩

theorem signProposalUnwrap_isOk {data} (hauthor : data.author = some author) :
    (∃ result, signProposalUnwrap C proofs rules data = .ok result) ↔
      rules.SignsFor C author data.epoch ∨ rules.Recovers C proofs author data.epoch := by
  rw [← retry_signProposal_isOk hauthor, signProposalUnwrap]
  rcases (retry C proofs (signProposal C data)).exec rules with
    ⟨result, t⟩
  cases result with
  | ok => simp
  | error fault => cases fault <;> simp

theorem payload_eq_some_iff {data : BlockData} {payload} :
    data.payload = some payload ↔ ∃ proposer, data.blockType = .proposal payload proposer := by
  unfold BlockData.payload
  cases data.blockType <;> simp

theorem mutateProposal_isOk {msg} {draws} :
    (∃ result, mutateProposal C proofs rules author msg draws = .ok result) ↔
      ProposalFits C proofs rules author msg draws := by
  have hsigned : ∀ payload round timestamp, (∃ result, signProposalUnwrap C proofs rules
      (.newProposal payload author round timestamp msg.proposal.quorumCert) = .ok result) ↔ _ :=
    fun _ _ _ => signProposalUnwrap_isOk rfl
  simp only [mutateProposal, bind_isOk, okOr_eq_ok, pure_isOk, and_true, hsigned]
  simp only [BlockData.newProposal, exists_and_right, mutateTimestamp_isOk, mutateRound_isOk,
    payload_eq_some_iff]
  constructor
  · rintro ⟨htimestamp, hround, hpayload, hsigned⟩
    exact ⟨htimestamp, hround, hpayload, hsigned⟩
  · intro h
    exact ⟨h.timestampUsecs, h.round, h.payload, h.signed⟩

theorem mutateMsg_isOk {msg draws} :
    (∃ result, mutateMsg C proofs rules author draws msg = .ok result) ↔
      MsgFits C proofs rules author draws msg := by
  cases msg with
  | proposalMsg =>
    simp only [mutateMsg, bind_isOk, pure_isOk, and_true, mutateProposal_isOk, MsgFits]
  | voteMsg =>
    simp only [mutateMsg, bind_isOk, pure_isOk, and_true, mutateVote_isOk, MsgFits]
  | _ => exact iff_of_true ⟨_, rfl⟩ trivial

/-- An iteration of the loop returns exactly when the message that it takes from the queue is one
that it can mutate with what is drawn. -/
theorem fuzzOnce_returns_iff (C : Crypto) (proofs : EpochProofs) (lastMsg : List ConsensusMsg)
    (rules : SafetyRules) (author : Author) (draws : Draws) :
    (∃ iteration, fuzzOnce C proofs lastMsg rules author draws = .ok iteration) ↔
      ∀ msg, chosenMsg lastMsg draws = some msg → MsgFits C proofs rules author draws msg := by
  unfold fuzzOnce
  cases hchosen : chosenMsg lastMsg draws with
  | none => exact iff_of_true ⟨_, rfl⟩ (by simp)
  | some =>
    simp only [Option.some.injEq, forall_eq', bind_isOk, pure_isOk, and_true, mutateMsg_isOk]

/-! ## Seeds that end the loop -/

def seedProposal (epoch round : Nat) (blockType : BlockType) : ConsensusMsg :=
  let certified : BlockInfo := { BlockInfo.empty with epoch := epoch }
  let qc : QuorumCert := {
    voteData := { proposed := certified, parent := certified }
    signedLedgerInfo := {
      ledgerInfo := { commitInfo := certified, consensusDataHash := 0 }
      signatures := ∅ } }
  .proposalMsg {
    proposal := {
      blockData := {
        epoch := epoch
        round := round
        timestampUsecs := 0
        quorumCert := qc
        blockType := blockType }
      signature := none }
    syncInfo := .new qc qc none }

def seedVote (epoch : Nat) : ConsensusMsg :=
  .voteMsg {
    vote := { PendingVotes.pairVote 1 7 0 with
      voteData := {
        proposed := { BlockInfo.empty with epoch := epoch }
        parent := BlockInfo.empty } }
    syncInfo := RoundState.soleSyncInfo 1 0 }

def soleProofs : EpochProofs := fun _ =>
  .ok {
    ledgerInfoWithSigs := [{ ledgerInfo := soleGenesis, signatures := ∅ }]
    more := false }

def constantDraws (n : Nat) : Draws where
  choice := n
  proposal := { temp4 := n, temp := n }
  vote :=
    let draws : BlockInfoDraws := { temp1 := n, temp2 := n, temp3 := n, temp4 := n }
    { proposed := draws, parent := draws, commit := draws }

/-- The loop handles a proposal of the epoch of the rules, and ends with a panic for a nil block, a
block of another epoch, and a round or an epoch close to the highest number. -/
theorem fuzzOnce_panics :
    (fuzzOnce .concrete soleProofs (pushLastMsg [] (seedProposal 1 5 (.proposal [] 1)))
      .soleRules 1 (constantDraws 3)).isOk = true ∧
    (fuzzOnce .concrete soleProofs (pushLastMsg [] (seedProposal 1 5 .nilBlock))
      .soleRules 1 (constantDraws 3)).isOk = false ∧
    (fuzzOnce .concrete soleProofs (pushLastMsg [] (seedProposal 2 5 (.proposal [] 1)))
      .soleRules 1 (constantDraws 3)).isOk = false ∧
    (fuzzOnce .concrete soleProofs (pushLastMsg [] (seedProposal 1 (u64Bound - 1) (.proposal [] 1)))
      .soleRules 1 (constantDraws 3)).isOk = false ∧
    (fuzzOnce .concrete soleProofs (pushLastMsg [] (seedVote (u64Bound - 1)))
      .soleRules 1 (constantDraws 4)).isOk = false := by
  decide +kernel

end Loki.Diem
