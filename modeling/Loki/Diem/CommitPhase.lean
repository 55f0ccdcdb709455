import Loki.Diem.BlockStorage.BlockTree

/-!
# The commit phase

`consensus/src/experimental/commit_phase.rs`.  A batch of executed blocks waits for commit votes on
its ledger info.  Votes are matched by the committed block only, while a signature covers the whole
ledger info: a vote for the same block with other consensus data is kept under its author, and the
signatures then never verify.
-/

namespace Loki.Diem

open Loki.Foundation ValidatorVerifier Finset
open BlockInfo (empty)

structure CommitVote where
  author : Author
  ledgerInfo : LedgerInfo
  signature : Signature
  deriving DecidableEq

structure CommitDecision where
  ledgerInfo : LedgerInfoWithSignatures
  deriving DecidableEq

section

variable (C : Crypto)

def CommitVote.verify (vote : CommitVote) (validator : ValidatorVerifier) : Except String Unit :=
  mapErr (fun _ => "Failed to verify Commit Proposal")
    (validator.verify C vote.author (.ledgerInfo vote.ledgerInfo) vote.signature)

def CommitDecision.verify (decision : CommitDecision) (validator : ValidatorVerifier) :
    Except String Unit :=
  mapErr (fun _ => "Failed to verify Commit Decision")
    (decision.ledgerInfo.verifySignatures C validator)

end

/-- The errors of `experimental/errors.rs` that the commit phase returns. -/
inductive CommitPhaseError where
  | inconsistentBlockInfo (received expected : BlockInfo)
  deriving DecidableEq

structure PendingBlocks where
  blocks : List ExecutedBlock
  ledgerInfoSig : LedgerInfoWithSignatures
  blockInfo : BlockInfo
  deriving DecidableEq

namespace PendingBlocks

variable (C : Crypto)

def new (blocks : List ExecutedBlock) (ledgerInfoSig : LedgerInfoWithSignatures) :
    Outcome PendingBlocks := do
  let last ← okOr blocks.getLast? (.panic "assertion failed: !blocks.is_empty()")
  return { blocks := blocks, ledgerInfoSig := ledgerInfoSig, blockInfo := last.blockInfo C }

def round (pending : PendingBlocks) : Nat := pending.blockInfo.round

def verify (pending : PendingBlocks) (verifier : ValidatorVerifier) : Except VerifyError Unit :=
  if pending.blockInfo = pending.ledgerInfoSig.ledgerInfo.commitInfo then
    pending.ledgerInfoSig.verifySignatures C verifier
  else
    .error .inconsistentBlockInfo

end PendingBlocks

structure CommitPhase where
  blocks : Option PendingBlocks
  verifier : ValidatorVerifier
  author : Author
  backPressure : Nat
  /-- What was handed to the execution proxy. -/
  committed : List PendingBlocks
  deriving DecidableEq

namespace CommitPhase

variable (C : Crypto)

variable (s : CommitPhase)

def processCommitVote (vote : CommitVote) : Except CommitPhaseError Unit × CommitPhase :=
  match s.blocks with
  | none => (.ok (), s)
  | some pending =>
    if vote.ledgerInfo.commitInfo ≠ pending.blockInfo then
      (.error (.inconsistentBlockInfo vote.ledgerInfo.commitInfo pending.blockInfo), s)
    else
      (.ok (), { s with
        blocks := some { pending with
          ledgerInfoSig := pending.ledgerInfoSig.addSignature vote.author vote.signature } })

def processCommitDecision (decision : CommitDecision) :
    Except CommitPhaseError Unit × CommitPhase :=
  match s.blocks with
  | none => (.ok (), s)
  | some pending =>
    if decision.ledgerInfo.ledgerInfo.commitInfo ≠ pending.blockInfo then
      (.error (.inconsistentBlockInfo decision.ledgerInfo.ledgerInfo.commitInfo
        pending.blockInfo), s)
    else
      (.ok (), { s with
        blocks := some { pending with ledgerInfoSig := decision.ledgerInfo } })

/-- `check_commit`, when the execution proxy does not fail. -/
def checkCommit : CommitPhase :=
  match s.blocks with
  | none => s
  | some pending =>
    match pending.verify C s.verifier with
    | .ok _ => { s with
        blocks := none
        backPressure := pending.round
        committed := s.committed ++ [pending] }
    | .error _ => s

/-- `process_executed_blocks`.  `signed` is the answer of the safety rules to `sign_commit_vote`. -/
def processExecutedBlocks (blocks : List ExecutedBlock)
    (orderedLedgerInfo : LedgerInfoWithSignatures) (signed : Except String Signature) :
    Outcome (CommitVote × CommitPhase) := do
  let last ← okOr blocks.getLast? (.panic "called `Option::unwrap()` on a `None` value")
  let commitLedgerInfo : LedgerInfo := {
    commitInfo := last.blockInfo C
    consensusDataHash := orderedLedgerInfo.ledgerInfo.consensusDataHash }
  let signature ← mapErr Fault.error signed
  let pending ← PendingBlocks.new C blocks { ledgerInfo := commitLedgerInfo, signatures := ∅ }
  return ({ author := s.author, ledgerInfo := commitLedgerInfo, signature := signature },
    { s with blocks := some pending })

end CommitPhase

/-! ## Runs on one batch -/

inductive CommitEvent where
  | vote (vote : CommitVote)
  | decision (decision : CommitDecision)
  | checkCommit

def CommitEvent.Verified (C : Crypto) (validator : ValidatorVerifier) : CommitEvent → Prop
  | .vote cv => cv.verify C validator = .ok ()
  | .decision cd => cd.verify C validator = .ok ()
  | .checkCommit => True

/-- A message for the block of the pending batch is about the pending ledger info, or it is a vote
of an author whose signature is there. -/
def CommitEvent.Harmless (li : LedgerInfo) (s : CommitPhase) : CommitEvent → Prop
  | .vote cv => ∀ pending, s.blocks = some pending →
      cv.ledgerInfo.commitInfo = pending.blockInfo →
        cv.ledgerInfo = li ∨ cv.author ∈ pending.ledgerInfoSig.signatures
  | .decision cd => ∀ pending, s.blocks = some pending →
      cd.ledgerInfo.ledgerInfo.commitInfo = pending.blockInfo → cd.ledgerInfo.ledgerInfo = li
  | .checkCommit => True

def votersFor (li : LedgerInfo) : List CommitEvent → Finset Author
  | [] => ∅
  | .vote vote :: events =>
    if vote.ledgerInfo = li then insert vote.author (votersFor li events)
    else votersFor li events
  | _ :: events => votersFor li events

theorem votersFor_append (li : LedgerInfo) (events events' : List CommitEvent) :
    votersFor li (events ++ events') = votersFor li events ∪ votersFor li events' := by
  induction events with
  | nil => simp [votersFor]
  | cons event _ ih =>
    cases event with
    | vote =>
      simp only [List.cons_append, votersFor, ih]
      split
      · rw [insert_union]
      · rfl
    | decision | checkCommit => exact ih

namespace CommitPhase

variable {C : Crypto} {s : CommitPhase}

section

variable (C)

variable (s)

def step : CommitEvent → CommitPhase
  | .vote vote => (s.processCommitVote vote).2
  | .decision decision => (s.processCommitDecision decision).2
  | .checkCommit => s.checkCommit C

def run (events : List CommitEvent) : CommitPhase := events.foldl (step C) s

theorem run_append (events : List CommitEvent) (event) :
    s.run C (events ++ [event]) = (s.run C events).step C event := by
  simp [run]

end

theorem step_verifier (s : CommitPhase) (event) :
    (s.step C event).verifier = s.verifier := by
  cases event with
  | vote =>
    simp only [step, processCommitVote]
    split
    · rfl
    · split
      all_goals rfl
  | decision =>
    simp only [step, processCommitDecision]
    split
    · rfl
    · split
      all_goals rfl
  | checkCommit =>
    simp only [step, checkCommit]
    split
    · rfl
    · split
      all_goals rfl

theorem run_verifier (s : CommitPhase) (events : List CommitEvent) :
    (s.run C events).verifier = s.verifier := by
  induction events using List.reverseRecOn with
  | nil => rfl
  | append_singleton _ _ ih => rw [run_append, step_verifier, ih]

theorem checkCommit_cases (s : CommitPhase) : s.checkCommit C = s ∨
    ∃ pending, s.blocks = some pending ∧
      pending.ledgerInfoSig.ledgerInfo.commitInfo = pending.blockInfo ∧
      pending.ledgerInfoSig.QuorumSigned C s.verifier ∧
      s.checkCommit C = { s with
        blocks := none
        backPressure := pending.round
        committed := s.committed ++ [pending] } := by
  unfold checkCommit
  split
  · exact .inl rfl
  · next pending hblocks =>
      split
      · next hverify =>
          refine .inr ⟨pending, hblocks, ?_⟩
          unfold PendingBlocks.verify at hverify
          split at hverify
          · next hinfo => exact ⟨hinfo.symm, batchVerifyAggregatedSignatures_sound hverify, rfl⟩
          · cases hverify
      · exact .inl rfl

theorem checkCommit_of_signed {pending : PendingBlocks} (hblocks : s.blocks = some pending)
    (hv : s.verifier.NoOverflow)
    (hinfo : pending.ledgerInfoSig.ledgerInfo.commitInfo = pending.blockInfo)
    (hsigned : pending.ledgerInfoSig.QuorumSigned C s.verifier) :
    (s.checkCommit C).blocks = none ∧ (s.checkCommit C).committed = s.committed ++ [pending] := by
  have hverify : pending.verify C s.verifier = .ok () := by
    rw [PendingBlocks.verify, if_pos hinfo.symm]
    exact batchVerifyAggregatedSignatures_complete hv hsigned
  simp only [checkCommit, hblocks, hverify]
  exact ⟨trivial, trivial⟩

/-- The kept signatures are on the ledger info of the batch, and they are those of all voters or
of a quorum. -/
structure Collecting (C : Crypto) (verifier : ValidatorVerifier) (li : LedgerInfo)
    (blocks : List ExecutedBlock) (voters : Finset Author) (pending : PendingBlocks) : Prop where
  blocks_eq : pending.blocks = blocks
  blockInfo_eq : pending.blockInfo = li.commitInfo
  ledgerInfo_eq : pending.ledgerInfoSig.ledgerInfo = li
  signed : verifier.AllSigned C (.ledgerInfo li) pending.ledgerInfoSig.signatures
  voters_kept : voters ⊆ authorsOf pending.ledgerInfoSig.signatures ∨
    verifier.quorumVotingPower ≤ verifier.power (authorsOf pending.ledgerInfoSig.signatures)

def InProgress (C : Crypto) (before : List PendingBlocks) (li : LedgerInfo)
    (blocks : List ExecutedBlock) (voters : Finset Author) (s : CommitPhase) : Prop :=
  (∃ pending, s.blocks = some pending ∧ s.committed = before ∧
    Collecting C s.verifier li blocks voters pending) ∨
  (s.blocks = none ∧ ∃ pending, s.committed = before ++ [pending] ∧ pending.blocks = blocks)

section

variable {verifier : ValidatorVerifier} {li : LedgerInfo} {blocks : List ExecutedBlock}
  {voters : Finset Author} {pending : PendingBlocks} {before : List PendingBlocks}

theorem Collecting.addSignature (h : Collecting C verifier li blocks voters pending)
    {vote : CommitVote} (hvote : vote.verify C verifier = .ok ()) (hli : vote.ledgerInfo = li) :
    Collecting C verifier li blocks (insert vote.author voters) { pending with
      ledgerInfoSig := pending.ledgerInfoSig.addSignature vote.author vote.signature } where
  blocks_eq := h.blocks_eq
  blockInfo_eq := h.blockInfo_eq
  ledgerInfo_eq := h.ledgerInfo_eq
  signed := by
    rw [CommitVote.verify, mapErr_eq_ok, verify_eq_ok, hli] at hvote
    exact h.signed.insertIfNew hvote
  voters_kept := by
    simp only [LedgerInfoWithSignatures.addSignature, authorsOf_insertIfNew]
    rcases h.voters_kept with hkept | hquorum
    · exact .inl (insert_subset_insert _ hkept)
    · exact .inr (hquorum.trans (sum_le_sum_of_subset (subset_insert _ _)))

theorem addSignature_of_mem {info : LedgerInfoWithSignatures} {author}
    (hauthor : author ∈ info.signatures) (signature) :
    info.addSignature author signature = info := by
  have hsame : info.signatures.insertIfNew author signature = info.signatures := by
    ext key value
    rw [Std.ExtTreeMap.getElem?_insertIfNew]
    split
    · next hnew => exact absurd hauthor hnew.2
    · rfl
  rw [LedgerInfoWithSignatures.addSignature, hsame]

theorem Collecting.quorumSigned (h : Collecting C verifier li blocks voters pending)
    (hvoters : verifier.quorumVotingPower ≤ verifier.power voters) :
    pending.ledgerInfoSig.QuorumSigned C verifier := by
  rw [LedgerInfoWithSignatures.QuorumSigned, h.ledgerInfo_eq]
  refine h.signed.quorumSigned ?_
  rcases h.voters_kept with hkept | hquorum
  · exact hvoters.trans (sum_le_sum_of_subset hkept)
  · exact hquorum

section

variable (h : InProgress C before li blocks voters s)

include h

theorem InProgress.vote {vote} (hvote : vote.verify C s.verifier = .ok ())
    (hharmless : (CommitEvent.vote vote).Harmless li s) :
    InProgress C before li blocks (voters ∪ votersFor li [.vote vote]) (s.step C (.vote vote)) := by
  rcases h with ⟨pending, hblocks, hcommitted, hcollecting⟩ | ⟨hnone, hcommitted⟩
  · simp only [step, processCommitVote, hblocks, votersFor]
    by_cases hli : vote.ledgerInfo = li
    · have hinfo : ¬vote.ledgerInfo.commitInfo ≠ pending.blockInfo := by
        rw [hli, hcollecting.blockInfo_eq]
        exact fun hne => hne rfl
      rw [if_neg hinfo, if_pos hli, union_insert, union_empty]
      exact .inl ⟨_, rfl, hcommitted, hcollecting.addSignature hvote hli⟩
    · rw [if_neg hli, union_empty]
      split
      · exact .inl ⟨pending, hblocks, hcommitted, hcollecting⟩
      · next hinfo =>
          have hkept := (hharmless pending hblocks (not_not.mp hinfo)).resolve_left hli
          rw [addSignature_of_mem hkept]
          exact .inl ⟨pending, rfl, hcommitted, hcollecting⟩
  · simp only [step, processCommitVote, hnone]
    exact .inr ⟨hnone, hcommitted⟩

theorem InProgress.decision {decision}
    (hdecision : decision.verify C s.verifier = .ok ())
    (hharmless : (CommitEvent.decision decision).Harmless li s) :
    InProgress C before li blocks voters (s.step C (.decision decision)) := by
  rcases h with ⟨pending, hblocks, hcommitted, hcollecting⟩ | ⟨hnone, hcommitted⟩
  · simp only [step, processCommitDecision, hblocks]
    split
    · exact .inl ⟨pending, hblocks, hcommitted, hcollecting⟩
    · next hinfo =>
        have hli := hharmless pending hblocks (not_not.mp hinfo)
        rw [CommitDecision.verify, mapErr_eq_ok] at hdecision
        have hsigned := batchVerifyAggregatedSignatures_sound hdecision
        rw [hli] at hsigned
        exact .inl ⟨_, rfl, hcommitted, hcollecting.blocks_eq, hcollecting.blockInfo_eq, hli,
          hsigned.signed, .inr hsigned.quorum.power_le⟩
  · simp only [step, processCommitDecision, hnone]
    exact .inr ⟨hnone, hcommitted⟩

theorem InProgress.checkCommit : InProgress C before li blocks voters (s.step C .checkCommit) := by
  rcases checkCommit_cases (C := C) s with heq | ⟨pending, hblocks, -, -, heq⟩
  · simp only [step, heq]
    exact h
  · simp only [step, heq]
    rcases h with ⟨_, hblocks', hcommitted, hcollecting⟩ | ⟨hnone, -⟩
    · obtain rfl := Option.some.inj (hblocks.symm.trans hblocks')
      rw [hcommitted]
      exact .inr ⟨rfl, pending, rfl, hcollecting.blocks_eq⟩
    · rw [hblocks] at hnone
      cases hnone

end

def HarmlessRun (C : Crypto) (li : LedgerInfo) (s : CommitPhase) (events : List CommitEvent) :
    Prop :=
  ∀ earlier event later, events = earlier ++ event :: later → event.Harmless li (s.run C earlier)

theorem InProgress.run (h : InProgress C before li blocks ∅ s) {events : List CommitEvent}
    (hverified : ∀ event ∈ events, event.Verified C s.verifier)
    (hharmless : HarmlessRun C li s events) :
    InProgress C before li blocks (votersFor li events) (s.run C events) := by
  induction events using List.reverseRecOn with
  | nil => exact h
  | append_singleton events event ih =>
    have hinit := ih (fun event' hmem => hverified event' (List.mem_append_left _ hmem))
      fun earlier event' later heq => by
        subst heq
        exact hharmless earlier event' (later ++ [event]) (by simp)
    have hlast := hharmless events event [] rfl
    have hevent := hverified event (by simp)
    rw [← run_verifier s events] at hevent
    rw [run_append, votersFor_append]
    cases event with
    | vote => exact hinit.vote hevent hlast
    | decision decision =>
      rw [show votersFor li [.decision decision] = ∅ from rfl, union_empty]
      exact hinit.decision hevent hlast
    | checkCommit =>
      rw [show votersFor li [.checkCommit] = ∅ from rfl, union_empty]
      exact hinit.checkCommit

theorem processExecutedBlocks_inProgress {s₀ : CommitPhase} {vote orderedLedgerInfo signed}
    (h : s₀.processExecutedBlocks C blocks orderedLedgerInfo signed = .ok (vote, s)) :
    InProgress C s₀.committed vote.ledgerInfo blocks ∅ s ∧ s.verifier = s₀.verifier := by
  simp only [processExecutedBlocks, PendingBlocks.new, bind_eq_ok, okOr_eq_ok, mapErr_eq_ok,
    pure_eq_ok, Prod.mk.injEq] at h
  obtain ⟨_, hlast, _, -, _, ⟨_, hlast', rfl⟩, rfl, rfl⟩ := h
  obtain rfl := Option.some.inj (hlast.symm.trans hlast')
  exact ⟨.inl ⟨_, rfl, rfl, rfl, rfl, rfl, allSigned_empty, .inl (empty_subset _)⟩, rfl⟩

/-- Once the votes of a quorum on the ledger info of a batch were processed, the next check commits
it, when no other message about its block was harmful; and a batch is committed only with the
signatures of a quorum. -/
theorem run_commits (C : Crypto) (s₀ s : CommitPhase) (blocks : List ExecutedBlock)
    (orderedLedgerInfo : LedgerInfoWithSignatures) (signed : Except String Signature)
    (vote : CommitVote) (events : List CommitEvent) (hv : s₀.verifier.NoOverflow)
    (hstart : s₀.processExecutedBlocks C blocks orderedLedgerInfo signed = .ok (vote, s))
    (hverified : ∀ event ∈ events, event.Verified C s₀.verifier) :
    (HarmlessRun C vote.ledgerInfo s events →
      s₀.verifier.quorumVotingPower ≤ s₀.verifier.power (votersFor vote.ledgerInfo events) →
      (s.run C (events ++ [.checkCommit])).blocks = none ∧
        ∃ pending, (s.run C (events ++ [.checkCommit])).committed = s₀.committed ++ [pending] ∧
          pending.blocks = blocks) ∧
    ((s.run C (events ++ [.checkCommit])).committed = (s.run C events).committed ∨
      ∃ pending, (s.run C (events ++ [.checkCommit])).committed =
          (s.run C events).committed ++ [pending] ∧
        pending.ledgerInfoSig.ledgerInfo.commitInfo = pending.blockInfo ∧
        pending.ledgerInfoSig.QuorumSigned C s₀.verifier) := by
  obtain ⟨hprogress, hverifier⟩ := processExecutedBlocks_inProgress hstart
  rw [← hverifier] at hv hverified ⊢
  rw [run_append]
  refine ⟨fun hharmless hvoters => ?_, ?_⟩
  · rcases hprogress.run hverified hharmless with
      ⟨pending, hblocks, hcommitted, hcollecting⟩ | ⟨hnone, hcommitted⟩
    · have hsigned := hcollecting.quorumSigned (by rw [run_verifier]; exact hvoters)
      have hinfo : pending.ledgerInfoSig.ledgerInfo.commitInfo = pending.blockInfo := by
        rw [hcollecting.ledgerInfo_eq, hcollecting.blockInfo_eq]
      obtain ⟨hdone, hnew⟩ := checkCommit_of_signed hblocks (by rw [run_verifier]; exact hv) hinfo
        hsigned
      rw [hcommitted] at hnew
      exact ⟨hdone, pending, hnew, hcollecting.blocks_eq⟩
    · have hsame : (s.run C events).step C .checkCommit = s.run C events := by
        simp [step, CommitPhase.checkCommit, hnone]
      rw [hsame]
      exact ⟨hnone, hcommitted⟩
  · rcases checkCommit_cases (C := C) (s.run C events) with heq | ⟨pending, -, hinfo, hsigned, heq⟩
    · exact .inl (by simp [step, heq])
    · refine .inr ⟨pending, ?_, hinfo, ?_⟩
      · simp [step, heq]
      · rw [run_verifier] at hsigned
        exact hsigned

end

/-! ## Three validators -/

def byConsensusData : Crypto :=
  { Crypto.concrete with
    verify := fun key message signature =>
      match message with
      | .ledgerInfo li => key + 10 * li.consensusDataHash == signature
      | _ => key == signature }

def unequal : ValidatorVerifier where
  addressToValidatorInfo := (((∅ : BTreeMap AccountAddress ValidatorConsensusInfo).insert 1
    { publicKey := 1, votingPower := 5 }).insert 2 { publicKey := 2, votingPower := 1 }).insert 3
      { publicKey := 3, votingPower := 1 }
  quorumVotingPower := 5
  totalVotingPower := 7

example : new unequal.addressToValidatorInfo = some unequal := by
  decide +kernel

def idle : CommitPhase where
  blocks := none
  verifier := unequal
  author := 1
  backPressure := 0
  committed := []

def batchBlock : ExecutedBlock where
  block := {
    blockData := {
      epoch := 0
      round := 1
      timestampUsecs := 0
      quorumCert := {
        voteData := { proposed := empty, parent := empty }
        signedLedgerInfo := {
          ledgerInfo := { commitInfo := empty, consensusDataHash := 0 }
          signatures := ∅ } }
      blockType := .nilBlock }
    signature := none }
  stateComputeResult := default

def batchVote (author : Author) (consensusData : HashValue) : CommitVote where
  author := author
  ledgerInfo := {
    commitInfo := { empty with round := 1 }
    consensusDataHash := consensusData }
  signature := author + 10 * consensusData

def ordered : LedgerInfoWithSignatures where
  ledgerInfo := { commitInfo := empty, consensusDataHash := 0 }
  signatures := ∅

def waiting : CommitPhase :=
  { idle with
    blocks := some {
      blocks := [batchBlock]
      ledgerInfoSig := { ledgerInfo := (batchVote 1 0).ledgerInfo, signatures := ∅ }
      blockInfo := { empty with round := 1 } } }

theorem run_commits_unequal :
    idle.processExecutedBlocks byConsensusData [batchBlock] ordered (.ok 1) =
      .ok (batchVote 1 0, waiting) ∧
    (waiting.run byConsensusData ([.vote (batchVote 1 0)] ++ [.checkCommit])).blocks = none ∧
    ∃ pending, (waiting.run byConsensusData
        ([.vote (batchVote 1 0)] ++ [.checkCommit])).committed = [pending] ∧
      pending.blocks = [batchBlock] := by
  have hverified : ∀ event ∈ [CommitEvent.vote (batchVote 1 0)],
      event.Verified byConsensusData idle.verifier := by
    intro event hevent
    obtain rfl := List.mem_singleton.mp hevent
    rfl
  have hharmless : HarmlessRun byConsensusData (batchVote 1 0).ledgerInfo waiting
      [.vote (batchVote 1 0)] := by
    intro earlier _ _ heq
    cases earlier with
    | nil =>
      cases heq
      exact fun _ _ _ => .inl rfl
    | cons =>
      have hlength := congrArg List.length heq
      simp at hlength
  have hv : idle.verifier.NoOverflow := by
    unfold NoOverflow
    decide +kernel
  have hquorum : idle.verifier.quorumVotingPower ≤ idle.verifier.power
      (votersFor (batchVote 1 0).ledgerInfo [.vote (batchVote 1 0)]) := by decide +kernel
  have hstart : idle.processExecutedBlocks byConsensusData [batchBlock] ordered (.ok 1) =
      .ok (batchVote 1 0, waiting) := by decide +kernel
  exact ⟨hstart, (run_commits byConsensusData idle waiting [batchBlock] ordered (.ok 1)
    (batchVote 1 0)
    _ hv hstart hverified).1 hharmless hquorum⟩

/-- Validator 2 alone, with less power than what a quorum leaves, keeps the batch from being
committed after the votes of a quorum. -/
theorem run_commits_poisoned :
    idle.processExecutedBlocks byConsensusData [batchBlock] ordered (.ok 1) =
      .ok (batchVote 1 0, waiting) ∧
    (∀ event ∈ [CommitEvent.vote (batchVote 2 1), .vote (batchVote 1 0), .vote (batchVote 3 0)],
      event.Verified byConsensusData unequal) ∧
    unequal.power {2} < unequal.totalVotingPower - unequal.quorumVotingPower ∧
    unequal.quorumVotingPower ≤ unequal.power (votersFor (batchVote 1 0).ledgerInfo
      [.vote (batchVote 2 1), .vote (batchVote 1 0), .vote (batchVote 3 0)]) ∧
    (waiting.run byConsensusData [.vote (batchVote 2 1), .vote (batchVote 1 0),
      .vote (batchVote 3 0), .checkCommit]).blocks.isSome = true ∧
    (waiting.run byConsensusData [.vote (batchVote 2 1), .vote (batchVote 1 0),
      .vote (batchVote 3 0), .checkCommit]).committed = [] := by
  refine ⟨by decide +kernel, fun _ hevent => ?_, by decide +kernel, by decide +kernel,
    by decide +kernel, by decide +kernel⟩
  simp only [List.mem_cons, List.not_mem_nil, or_false] at hevent
  rcases hevent with rfl | rfl | rfl
  all_goals rfl

end CommitPhase

end Loki.Diem
