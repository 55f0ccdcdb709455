import Loki.Foundation.Checked
import Loki.Diem.PendingVotes
import Loki.Diem.BlockStorage.BlockTree

/-!
# Rounds and their certificates

`consensus-types/src/sync_info.rs` and `consensus/src/liveness/round_state.rs`.  A round starts
when a certificate of the round before it is known.  The votes collected and the vote sent belong
to the current round and are dropped with it.

Durations are natural numbers, and the task that reports a local timeout later is not modelled: a
timeout is a call like any other.  Sums and differences of rounds are checked.
-/

namespace Loki.Diem

open Loki.Foundation List Nat

structure SyncInfo where
  highestQuorumCert : QuorumCert
  /-- `None` when it is the highest quorum certificate. -/
  commitCert : Option QuorumCert
  highestTimeoutCert : Option TimeoutCertificate
  deriving DecidableEq

namespace SyncInfo

def new (highestQuorumCert highestCommitCert : QuorumCert)
    (highestTimeoutCert : Option TimeoutCertificate) : SyncInfo where
  highestQuorumCert := highestQuorumCert
  commitCert := if highestQuorumCert = highestCommitCert then none else some highestCommitCert
  highestTimeoutCert := highestTimeoutCert.filter fun tc =>
    highestQuorumCert.certifiedBlock.round < tc.timeout.round

variable (info : SyncInfo)

def highestCommitCert : QuorumCert := info.commitCert.getD info.highestQuorumCert

def highestCertifiedRound : Nat := info.highestQuorumCert.certifiedBlock.round

def highestTimeoutRound : Nat :=
  match info.highestTimeoutCert with
  | none => 0
  | some tc => tc.timeout.round

def highestCommitRound : Nat := info.highestCommitCert.commitInfo.round

def highestRound : Nat := max info.highestCertifiedRound info.highestTimeoutRound

def verify (C : Crypto) (info : SyncInfo) (validator : ValidatorVerifier) : Except String Unit := do
  let epoch := info.highestQuorumCert.certifiedBlock.epoch
  ensure (epoch = info.highestCommitCert.certifiedBlock.epoch)
    "Multi epoch in SyncInfo - HCC and HQC"
  ensure (∀ tc ∈ info.highestTimeoutCert, epoch = tc.timeout.epoch)
    "Multi epoch in SyncInfo - TC and HQC"
  ensure (info.highestCommitCert.certifiedBlock.round ≤
    info.highestQuorumCert.certifiedBlock.round) "HQC has lower round than HCC"
  ensure (info.highestCommitCert.commitInfo ≠ BlockInfo.empty) "HCC has no committed block"
  let context := mapErr fun _ => "Fail to verify SyncInfo"
  context (info.highestQuorumCert.verify C validator)
  match info.commitCert with
  | none => pure ()
  | some cert => context (cert.verify C validator)
  match info.highestTimeoutCert with
  | none => pure ()
  | some tc => context (tc.verify C validator)

end SyncInfo

inductive NewRoundReason where
  | qcReady
  | timeout
  deriving DecidableEq

structure NewRoundEvent where
  round : Nat
  reason : NewRoundReason
  timeout : Nat
  deriving DecidableEq

structure RoundState where
  timeInterval : Nat → Nat
  highestCommittedRound : Nat
  currentRound : Nat
  currentRoundDeadline : Nat
  pendingVotes : PendingVotes
  voteSent : Option Vote

namespace RoundState

def new (timeInterval : Nat → Nat) (now : Nat) : RoundState where
  timeInterval := timeInterval
  highestCommittedRound := 0
  currentRound := 0
  currentRoundDeadline := now
  pendingVotes := .new
  voteSent := none

variable (s : RoundState)

def roundIndexAfterCommittedRound : Outcome Nat :=
  if s.highestCommittedRound = 0 then
    -- the commit of genesis does not take a chain of three
    checkedSub s.currentRound 1
  else do
    let first ← checkedAdd u64Bound s.highestCommittedRound 3
    if s.currentRound < first then
      pure 0
    else do
      let difference ← checkedSub s.currentRound s.highestCommittedRound
      checkedSub difference 3

def setupDeadline (now : Nat) : Outcome (Nat × RoundState) := do
  let index ← s.roundIndexAfterCommittedRound
  let timeout := s.timeInterval index
  pure (timeout, { s with currentRoundDeadline := now + timeout })

def processLocalTimeout (round now : Nat) : Outcome (Bool × RoundState) :=
  if round ≠ s.currentRound then
    pure (false, s)
  else do
    let (_, s) ← s.setupDeadline now
    pure (true, s)

/-- The first statement of `process_certificates`. -/
def noteCommittedRound (syncInfo : SyncInfo) : RoundState :=
  if s.highestCommittedRound < syncInfo.highestCommitRound then
    { s with highestCommittedRound := syncInfo.highestCommitRound }
  else
    s

def startRound (newRound : Nat) : RoundState :=
  { s with currentRound := newRound, pendingVotes := .new, voteSent := none }

def processCertificates (syncInfo : SyncInfo) (now : Nat) :
    Outcome (Option NewRoundEvent × RoundState) := do
  let s := s.noteCommittedRound syncInfo
  let newRound ← checkedAdd u64Bound syncInfo.highestRound 1
  if s.currentRound < newRound then do
    let (timeout, s) ← (s.startRound newRound).setupDeadline now
    let reason := if syncInfo.highestTimeoutCert.isNone then .qcReady else .timeout
    pure (some { round := s.currentRound, reason := reason, timeout := timeout }, s)
  else
    pure (none, s)

def insertVote (C : Crypto) (s : RoundState) (vote : Vote) (verifier : ValidatorVerifier) :
    VoteReceptionResult × RoundState :=
  if vote.round = s.currentRound then
    let (result, pendingVotes) := s.pendingVotes.insertVote C vote verifier
    (result, { s with pendingVotes := pendingVotes })
  else
    (.unexpectedRound vote.round s.currentRound, s)

def recordVote (vote : Vote) : RoundState :=
  if vote.round = s.currentRound then { s with voteSent := some vote } else s

end RoundState

/-! ## Runs -/

inductive RoundCall where
  | processCertificates (syncInfo : SyncInfo) (now : Nat)
  | processLocalTimeout (round now : Nat)
  | insertVote (vote : Vote) (verifier : ValidatorVerifier)
  | recordVote (vote : Vote)

namespace RoundCall

def highestRound? : RoundCall → Option Nat
  | .processCertificates syncInfo _ => some syncInfo.highestRound
  | _ => none

/-- The certificates of the call leave room for the sums that are made with their rounds. -/
def InRange : RoundCall → Prop
  | .processCertificates syncInfo _ =>
    syncInfo.highestRound + 1 < u64Bound ∧ syncInfo.highestCommitRound + 3 < u64Bound
  | _ => True

end RoundCall

open RoundCall

inductive RoundAnswer where
  | newRound (event : Option NewRoundEvent)
  | localTimeout (reset : Bool)
  | voteReception (result : VoteReceptionResult)
  | recorded

def RoundAnswer.eventRound? : RoundAnswer → Option Nat
  | .newRound (some event) => some event.round
  | _ => none

def highestRounds (calls : List RoundCall) : List Nat := calls.filterMap highestRound?

def eventRounds (answers : List RoundAnswer) : List Nat := answers.filterMap RoundAnswer.eventRound?

@[simp] theorem highestRounds_append (calls calls' : List RoundCall) :
    highestRounds (calls ++ calls') = highestRounds calls ++ highestRounds calls' :=
  filterMap_append

@[simp] theorem eventRounds_append (answers answers' : List RoundAnswer) :
    eventRounds (answers ++ answers') = eventRounds answers ++ eventRounds answers' :=
  filterMap_append

namespace RoundState

variable (C : Crypto) {call : RoundCall} {answer : RoundAnswer} {syncInfo : SyncInfo}

def step (s : RoundState) : RoundCall → Outcome (RoundAnswer × RoundState)
  | .processCertificates syncInfo now => do
    let (event, s) ← s.processCertificates syncInfo now
    pure (.newRound event, s)
  | .processLocalTimeout round now => do
    let (reset, s) ← s.processLocalTimeout round now
    pure (.localTimeout reset, s)
  | .insertVote vote verifier =>
    let (result, s) := s.insertVote C vote verifier
    pure (.voteReception result, s)
  | .recordVote vote => pure (.recorded, s.recordVote vote)

def run (s : RoundState) (calls : List RoundCall) : Outcome (List RoundAnswer × RoundState) :=
  calls.foldlM (fun (answers, s) call => do
    let (answer, s) ← s.step C call
    pure (answers ++ [answer], s)) ([], s)

variable {C} {s : RoundState} {calls : List RoundCall} {answers : List RoundAnswer}

theorem run_append_of_ok {s' s''} (hrun : s.run C calls = .ok (answers, s'))
    (hstep : s'.step C call = .ok (answer, s'')) :
    s.run C (calls ++ [call]) = .ok (answers ++ [answer], s'') := by
  unfold run at hrun ⊢
  rw [foldlM_append, hrun]
  simp [hstep, bind, Except.bind, pure, Except.pure]

/-! ### One call -/

theorem setupDeadline_of_inRange (now : Nat) (hround : 0 < s.currentRound)
    (hcommitted : s.highestCommittedRound + 3 < u64Bound) :
    ∃ timeout, s.setupDeadline now =
      .ok (timeout, { s with currentRoundDeadline := now + timeout }) := by
  have hindex : ∃ index, s.roundIndexAfterCommittedRound = .ok index := by
    unfold roundIndexAfterCommittedRound
    split
    · exact ⟨_, checkedSub_of_le hround⟩
    · rw [checkedAdd_of_lt hcommitted]
      by_cases hlt : s.currentRound < s.highestCommittedRound + 3
      · exact ⟨0, by simp [hlt]⟩
      · have hle : s.highestCommittedRound ≤ s.currentRound := by omega
        have hle' : 3 ≤ s.currentRound - s.highestCommittedRound := by omega
        refine ⟨s.currentRound - s.highestCommittedRound - 3, ?_⟩
        simp [hlt, hle, hle']
  obtain ⟨index, hindex⟩ := hindex
  exact ⟨s.timeInterval index, by simp [setupDeadline, hindex]⟩

/-- What a call does to the part of the state that belongs to a round. -/
structure SameRound (s s' : RoundState) : Prop where
  currentRound : s'.currentRound = s.currentRound
  pendingVotes : s'.pendingVotes = s.pendingVotes
  voteSent : s'.voteSent = s.voteSent

theorem noteCommittedRound_sameRound (syncInfo) :
    s.SameRound (s.noteCommittedRound syncInfo) := by
  unfold noteCommittedRound
  split <;> exact ⟨rfl, rfl, rfl⟩

theorem noteCommittedRound_le (h : syncInfo.highestCommitRound + 3 < u64Bound)
    (hs : s.highestCommittedRound + 3 < u64Bound) :
    (s.noteCommittedRound syncInfo).highestCommittedRound + 3 < u64Bound := by
  unfold noteCommittedRound
  split <;> assumption

section

variable (now : Nat) (h : (RoundCall.processCertificates syncInfo now).InRange)

include h

theorem processCertificates_newRound (hs : s.highestCommittedRound + 3 < u64Bound)
    (hlt : s.currentRound < syncInfo.highestRound + 1) :
    ∃ event s', s.processCertificates syncInfo now = .ok (some event, s') ∧
      event.round = syncInfo.highestRound + 1 ∧ s'.currentRound = syncInfo.highestRound + 1 ∧
      s'.pendingVotes = .new ∧ s'.voteSent = none ∧
      s'.highestCommittedRound + 3 < u64Bound := by
  have hnote := noteCommittedRound_le h.2 hs
  have hlt' : (s.noteCommittedRound syncInfo).currentRound < syncInfo.highestRound + 1 := by
    rwa [(noteCommittedRound_sameRound syncInfo).currentRound]
  obtain ⟨timeout, hdeadline⟩ := setupDeadline_of_inRange
    (s := (s.noteCommittedRound syncInfo).startRound (syncInfo.highestRound + 1)) now
    (succ_pos _) hnote
  have heq : s.processCertificates syncInfo now = .ok (some
      { round := syncInfo.highestRound + 1
        reason := if syncInfo.highestTimeoutCert.isNone then .qcReady else .timeout
        timeout := timeout },
      { (s.noteCommittedRound syncInfo).startRound (syncInfo.highestRound + 1) with
        currentRoundDeadline := now + timeout }) := by
    simp only [processCertificates, checkedAdd_of_lt h.1, bind, Except.bind, hlt', if_true,
      hdeadline]
    rfl
  exact ⟨_, _, heq, rfl, rfl, rfl, rfl, hnote⟩

theorem processCertificates_stale (hge : syncInfo.highestRound + 1 ≤ s.currentRound) :
    s.processCertificates syncInfo now = .ok (none, s.noteCommittedRound syncInfo) := by
  have hge' : ¬(s.noteCommittedRound syncInfo).currentRound < syncInfo.highestRound + 1 := by
    rw [(noteCommittedRound_sameRound syncInfo).currentRound]
    omega
  unfold processCertificates
  simp only [checkedAdd_of_lt h.1, bind, Except.bind, hge', if_false, pure, Except.pure]

end

/-! ### Whole runs -/

def Grows (calls : List RoundCall) (answers : List RoundAnswer) : Prop :=
  ∀ i syncInfo now, calls[i]? = some (.processCertificates syncInfo now) →
    ∃ event, answers[i]? = some (.newRound event) ∧
      (event.isSome ↔ ∀ round ∈ highestRounds (calls.take i), round < syncInfo.highestRound) ∧
      ∀ e ∈ event, e.round = syncInfo.highestRound + 1

theorem Grows.append (h : Grows calls answers) (hlength : answers.length = calls.length)
    (hlast : ∀ syncInfo now, call = .processCertificates syncInfo now →
      ∃ event, answer = .newRound event ∧
        (event.isSome ↔ ∀ round ∈ highestRounds calls, round < syncInfo.highestRound) ∧
        ∀ e ∈ event, e.round = syncInfo.highestRound + 1) :
    Grows (calls ++ [call]) (answers ++ [answer]) := by
  intro i syncInfo now hi
  rcases lt_trichotomy i calls.length with hlt | rfl | _
  · rw [getElem?_append_left hlt] at hi
    rw [getElem?_append_left (hlength ▸ hlt), take_append_of_le_length hlt.le]
    exact h i syncInfo now hi
  · rw [getElem?_concat_length, Option.some.injEq] at hi
    obtain ⟨event, rfl, _⟩ := hlast syncInfo now hi
    refine ⟨event, ?_, ?_⟩
    · rw [← hlength, getElem?_concat_length]
    · rwa [take_left]
  · have hnone : (calls ++ [call])[i]? = none := by
      apply getElem?_eq_none
      simp
      omega
    rw [hnone] at hi
    cases hi

structure RoundsFollow (calls : List RoundCall) (answers : List RoundAnswer)
    (currentRound : Nat) : Prop where
  answered : answers.length = calls.length
  current : ∃ highest, (highestRounds calls).max? = some highest ∧ currentRound = highest + 1
  increasing : (eventRounds answers).Pairwise (· < ·)
  last : ∀ round ∈ eventRounds answers, round ≤ currentRound
  grows : Grows calls answers

namespace RoundsFollow

variable {currentRound : Nat} {syncInfo : SyncInfo} {event : NewRoundEvent}

theorem highest_lt (h : RoundsFollow calls answers currentRound) {round}
    (hmem : round ∈ highestRounds calls) : round < currentRound := by
  obtain ⟨_, hmax, rfl⟩ := h.current
  exact lt_succ_of_le ((max?_eq_some_iff.mp hmax).2 _ hmem)

theorem first {now} (hevent : event.round = syncInfo.highestRound + 1) :
    RoundsFollow [.processCertificates syncInfo now] [.newRound (some event)]
      (syncInfo.highestRound + 1) where
  answered := rfl
  current := ⟨syncInfo.highestRound, rfl, rfl⟩
  increasing := by simp [eventRounds, RoundAnswer.eventRound?]
  last := by simp [eventRounds, RoundAnswer.eventRound?, hevent]
  grows := by
    have hnil : Grows [] [] := by
      intro i syncInfo now hi
      cases hi
    apply hnil.append rfl
    intro _ _ hcall
    cases hcall
    exact ⟨_, rfl, by simp [highestRounds], by simp [hevent]⟩

section

variable (h : RoundsFollow calls answers currentRound)

include h

theorem certificates (now : Nat) {event : Option NewRoundEvent}
    (hsome : event.isSome ↔ currentRound < syncInfo.highestRound + 1)
    (hevent : ∀ e ∈ event, e.round = syncInfo.highestRound + 1) :
    RoundsFollow (calls ++ [.processCertificates syncInfo now]) (answers ++ [.newRound event])
      (max currentRound (syncInfo.highestRound + 1)) := by
  obtain ⟨highest, hmax, hcurrent⟩ := h.current
  obtain ⟨hmem, hle⟩ := max?_eq_some_iff.mp hmax
  have hrounds : ∀ round ∈ eventRounds [.newRound event],
      currentRound < round ∧ round = syncInfo.highestRound + 1 := by
    cases event with
    | none => simp [eventRounds, RoundAnswer.eventRound?]
    | some event =>
      simp only [Option.isSome_some, true_iff] at hsome
      simp [eventRounds, RoundAnswer.eventRound?, hevent event rfl, hsome]
  refine ⟨by simp [h.answered], ⟨max highest syncInfo.highestRound, ?_, by omega⟩, ?_, ?_, ?_⟩
  · simp only [max?_eq_some_iff, highestRounds_append, mem_append]
    simp only [highestRounds, highestRound?, filterMap_cons, filterMap_nil, mem_singleton] at *
    grind
  · rw [eventRounds_append]
    refine pairwise_append.mpr ⟨h.increasing, ?_, fun round hmem _ hmem' => ?_⟩
    · cases event with
      | none => exact .nil
      | some => exact pairwise_singleton _ _
    · exact (h.last round hmem).trans_lt (hrounds _ hmem').1
  · intro round hmem
    rcases mem_append.mp (eventRounds_append _ _ ▸ hmem) with hmem | hmem
    · exact le_max_of_le_left (h.last round hmem)
    · exact le_max_of_le_right (hrounds _ hmem).2.le
  · apply h.grows.append h.answered
    intro _ _ hcall
    cases hcall
    refine ⟨event, rfl, hsome.trans ⟨fun hlt _ hmem => ?_, fun hall => ?_⟩, hevent⟩
    · have := h.highest_lt hmem
      omega
    · -- the certificates that reached the highest round so far did not reach as far
      have := hall highest hmem
      omega

theorem other {call answer} (hcall : call.highestRound? = none)
    (hanswer : answer.eventRound? = none) :
    RoundsFollow (calls ++ [call]) (answers ++ [answer]) currentRound where
  answered := by simp [h.answered]
  current := by simpa [highestRounds, hcall] using h.current
  increasing := by simpa [eventRounds, hanswer] using h.increasing
  last := by simpa [eventRounds, hanswer] using h.last
  grows := by
    apply h.grows.append h.answered
    intro _ _ heq
    rw [heq] at hcall
    cases hcall

end

end RoundsFollow

structure VotesOfRound (C : Crypto) (calls : List RoundCall) (s : RoundState) : Prop where
  pending : ∃ votes : List (Vote × ValidatorVerifier),
    (∀ vote ∈ votes, vote.1.round = s.currentRound ∧ .insertVote vote.1 vote.2 ∈ calls) ∧
    s.pendingVotes =
      votes.foldl (fun pending vote => (pending.insertVote C vote.1 vote.2).2) .new
  sent : ∀ vote ∈ s.voteSent, vote.round = s.currentRound

namespace VotesOfRound

variable {s' : RoundState} {call : RoundCall}

theorem cleared (hpending : s.pendingVotes = .new) (hsent : s.voteSent = none) :
    VotesOfRound C calls s where
  pending := ⟨[], by simp, hpending⟩
  sent := by simp [hsent]

theorem same (h : VotesOfRound C calls s) (hsame : s.SameRound s') :
    VotesOfRound C (calls ++ [call]) s' where
  pending := by
    obtain ⟨votes, hvotes, hpending⟩ := h.pending
    refine ⟨votes, fun vote hvote => ?_, hsame.pendingVotes.trans hpending⟩
    obtain ⟨hround, hmem⟩ := hvotes vote hvote
    exact ⟨hround.trans hsame.currentRound.symm, mem_append_left _ hmem⟩
  sent := by
    rw [hsame.voteSent, hsame.currentRound]
    exact h.sent

theorem insertVote (h : VotesOfRound C calls s) (vote) (verifier) :
    VotesOfRound C (calls ++ [.insertVote vote verifier]) (s.insertVote C vote verifier).2 := by
  unfold RoundState.insertVote
  split
  case isFalse => exact h.same ⟨rfl, rfl, rfl⟩
  next hround =>
    refine ⟨?_, h.sent⟩
    obtain ⟨votes, hvotes, hpending⟩ := h.pending
    refine ⟨votes ++ [(vote, verifier)], fun entry hentry => ?_, ?_⟩
    · rcases mem_append.mp hentry with hmem | hmem
      · exact ⟨(hvotes entry hmem).1, mem_append_left _ (hvotes entry hmem).2⟩
      · rw [mem_singleton.mp hmem]
        exact ⟨hround, by simp⟩
    · simp [foldl_append, ← hpending]

theorem recordVote (h : VotesOfRound C calls s) (vote) :
    VotesOfRound C (calls ++ [.recordVote vote]) (s.recordVote vote) := by
  unfold RoundState.recordVote
  split
  case isFalse => exact h.same ⟨rfl, rfl, rfl⟩
  next hround =>
    refine ⟨(h.same ⟨rfl, rfl, rfl⟩ : VotesOfRound C _ s).pending, ?_⟩
    simp [hround]

end VotesOfRound

structure Progress (C : Crypto) (calls : List RoundCall) (answers : List RoundAnswer)
    (s : RoundState) : Prop where
  rounds : RoundsFollow calls answers s.currentRound
  votes : VotesOfRound C calls s

theorem insertVote_rounds (vote) (verifier) :
    (s.insertVote C vote verifier).2.currentRound = s.currentRound ∧
      (s.insertVote C vote verifier).2.highestCommittedRound = s.highestCommittedRound := by
  unfold insertVote
  split <;> exact ⟨rfl, rfl⟩

theorem recordVote_rounds (vote) : (s.recordVote vote).currentRound = s.currentRound ∧
    (s.recordVote vote).highestCommittedRound = s.highestCommittedRound := by
  unfold recordVote
  split <;> exact ⟨rfl, rfl⟩

theorem processLocalTimeout_of_inRange (round now : Nat) (hround : 0 < s.currentRound)
    (hcommitted : s.highestCommittedRound + 3 < u64Bound) :
    ∃ reset s', s.processLocalTimeout round now = .ok (reset, s') ∧ s.SameRound s' ∧
      s'.highestCommittedRound = s.highestCommittedRound := by
  unfold processLocalTimeout
  split
  · exact ⟨false, s, rfl, ⟨rfl, rfl, rfl⟩, rfl⟩
  · obtain ⟨_, hdeadline⟩ := setupDeadline_of_inRange now hround hcommitted
    rw [hdeadline]
    exact ⟨true, _, rfl, ⟨rfl, rfl, rfl⟩, rfl⟩

theorem Progress.step (h : Progress C calls answers s)
    (hcommitted : s.highestCommittedRound + 3 < u64Bound) (hcall : call.InRange) :
    ∃ answer s', s.step C call = .ok (answer, s') ∧ s'.highestCommittedRound + 3 < u64Bound ∧
      Progress C (calls ++ [call]) (answers ++ [answer]) s' := by
  have hround : 0 < s.currentRound := by
    obtain ⟨_, -, hround⟩ := h.rounds.current
    omega
  cases call with
  | processCertificates syncInfo now =>
    rcases lt_or_ge s.currentRound (syncInfo.highestRound + 1) with hlt | hge
    · obtain ⟨event, s', heq, hevent, hs', hpending, hsent, hcommitted'⟩ :=
        processCertificates_newRound now hcall hcommitted hlt
      refine ⟨.newRound (some event), s', by simp [RoundState.step, heq], hcommitted', ?_, ?_⟩
      · rw [hs', ← max_eq_right hlt.le]
        exact h.rounds.certificates now (iff_of_true rfl hlt) (by simp [hevent])
      · exact .cleared hpending hsent
    · have heq := processCertificates_stale now hcall hge
      have hsame := noteCommittedRound_sameRound (s := s) syncInfo
      refine ⟨.newRound none, _, by simp [RoundState.step, heq],
        noteCommittedRound_le hcall.2 hcommitted, ?_, h.votes.same hsame⟩
      rw [hsame.currentRound, ← max_eq_left hge]
      exact h.rounds.certificates now (iff_of_false (by simp) hge.not_gt) (by simp)
  | processLocalTimeout round now =>
    obtain ⟨reset, s', heq, hsame, hcommitted'⟩ :=
      processLocalTimeout_of_inRange round now hround hcommitted
    refine ⟨.localTimeout reset, s', by simp [RoundState.step, heq], ?_, ?_, h.votes.same hsame⟩
    · rwa [hcommitted']
    · rw [hsame.currentRound]
      exact h.rounds.other rfl rfl
  | insertVote vote verifier =>
    obtain ⟨hsame, hcommitted'⟩ := insertVote_rounds (C := C) (s := s) vote verifier
    refine ⟨.voteReception (s.insertVote C vote verifier).1, (s.insertVote C vote verifier).2, rfl,
      by rwa [hcommitted'], ?_, h.votes.insertVote _ _⟩
    rw [hsame]
    exact h.rounds.other rfl rfl
  | recordVote vote =>
    obtain ⟨hsame, hcommitted'⟩ := recordVote_rounds (s := s) vote
    refine ⟨.recorded, _, rfl, by rwa [hcommitted'], ?_, h.votes.recordVote _⟩
    rw [hsame]
    exact h.rounds.other rfl rfl

/-- From a new state, calls that start with certificates, and whose certificates leave room for the
sums, all return, and the current round is the one after the highest certificate. -/
theorem run_progress (C : Crypto) (timeInterval : Nat → Nat) (start now : Nat)
    (syncInfo : SyncInfo) (calls : List RoundCall)
    (h : ∀ call ∈ RoundCall.processCertificates syncInfo now :: calls, call.InRange) :
    ∃ answers s, (new timeInterval start).run C (.processCertificates syncInfo now :: calls) =
        .ok (answers, s) ∧
      Progress C (.processCertificates syncInfo now :: calls) answers s := by
  suffices hrun : ∃ answers s,
      (new timeInterval start).run C (.processCertificates syncInfo now :: calls) =
        .ok (answers, s) ∧ s.highestCommittedRound + 3 < u64Bound ∧
      Progress C (.processCertificates syncInfo now :: calls) answers s by
    obtain ⟨answers, s, heq, -, hprogress⟩ := hrun
    exact ⟨answers, s, heq, hprogress⟩
  induction calls using reverseRecOn with
  | nil =>
    obtain ⟨event, s', heq, hevent, hs', hpending, hsent, hcommitted⟩ :=
      processCertificates_newRound (s := new timeInterval start) now
        (h _ mem_cons_self) (show 0 + 3 < u64Bound by decide) (succ_pos _)
    refine ⟨[.newRound (some event)], s', ?_, hcommitted, ?_, .cleared hpending hsent⟩
    · simp [RoundState.run, RoundState.step, heq]
    · rw [hs']
      exact .first hevent
  | append_singleton _ call ih =>
    obtain ⟨answers, s, hrun, hcommitted, hprogress⟩ := ih fun _ hmem => by
      apply h
      simp only [mem_cons, mem_append] at hmem ⊢
      tauto
    obtain ⟨answer, s', hstep, hcommitted', hprogress'⟩ :=
      hprogress.step hcommitted (h call (by simp))
    exact ⟨answers ++ [answer], s', run_append_of_ok hrun hstep, hcommitted', hprogress'⟩

/-! ### A sole validator -/

/-- The sole validator has certified a block of the round, which commits one of another round. -/
def soleCertificate (round committed : Nat) : QuorumCert where
  voteData := {
    proposed := { BlockInfo.empty with round := round }
    parent := { BlockInfo.empty with round := round - 1 } }
  signedLedgerInfo := {
    ledgerInfo := {
      commitInfo := { BlockInfo.empty with round := committed }
      consensusDataHash := 0 }
    signatures := (∅ : BTreeMap AccountAddress Signature).insert 1 7 }

def soleSyncInfo (round committed : Nat) : SyncInfo :=
  .new (soleCertificate round committed) (soleCertificate round committed) none

/-- Round 6 is entered from certificates, times out, and is left for round 9; certificates that come
late change nothing. -/
def soleCalls : List RoundCall :=
  [.processCertificates (soleSyncInfo 5 3) 10, .processLocalTimeout 6 20,
    .processCertificates (soleSyncInfo 8 6) 30, .processCertificates (soleSyncInfo 7 5) 40]

theorem run_progress_sole :
    (∀ call ∈ soleCalls, call.InRange) ∧
    ∃ answers s, (new (fun index => 1000 * (index + 1)) 0).run .concrete soleCalls =
        .ok (answers, s) ∧ Progress .concrete soleCalls answers s := by
  have hrange : ∀ call ∈ soleCalls, call.InRange := by
    simp only [soleCalls, forall_mem_cons, not_mem_nil, false_implies, implies_true, and_true]
    exact ⟨by unfold InRange; decide, trivial, by unfold InRange; decide, by unfold InRange; decide⟩
  exact ⟨hrange, run_progress _ _ _ _ _ _ hrange⟩

/-- Certificates that are valid end the program when their round is the last one there is, or when
the round they commit is too close to it. -/
theorem run_progress_overflows :
    (soleSyncInfo (u64Bound - 1) (u64Bound - 3)).verify .concrete .sole = .ok () ∧
    (new (fun _ => 1000) 0).run .concrete
        [.processCertificates (soleSyncInfo (u64Bound - 1) (u64Bound - 3)) 10] =
      .error (.panic "attempt to add with overflow") ∧
    (soleSyncInfo (u64Bound - 2) (u64Bound - 3)).verify .concrete .sole = .ok () ∧
    (new (fun _ => 1000) 0).run .concrete
        [.processCertificates (soleSyncInfo (u64Bound - 2) (u64Bound - 3)) 10] =
      .error (.panic "attempt to add with overflow") := by
  refine ⟨?_, rfl, ?_, rfl⟩
  · decide +kernel
  · decide +kernel

end RoundState

end Loki.Diem
