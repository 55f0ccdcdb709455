import Loki.Diem.ConsensusTypes

/-!
# Aggregation of votes

`consensus/src/pending_votes.rs`.  The votes of one epoch and round are collected by the digest of
their ledger info until a quorum certificate can be made, and their timeout signatures until a
timeout certificate can be made.  When a quorum certificate is returned, the timeout signature of
the vote is not looked at.

Votes are accepted once by author, and once more when a timeout signature comes in.  What the maps
hold is a function of the accepted votes, in any order of arrival.
-/

namespace Loki.Diem

open Loki.Foundation List ValidatorVerifier LedgerInfoWithSignatures

inductive VoteReceptionResult where
  | voteAdded (votingPower : Nat)
  | duplicateVote
  | equivocateVote
  | newQuorumCertificate (qc : QuorumCert)
  | newTimeoutCertificate (tc : TimeoutCertificate)
  | errorAddingVote (error : VerifyError)
  | unexpectedRound (voteRound currentRound : Nat)
  deriving DecidableEq

structure PendingVotes where
  liDigestToVotes : BTreeMap HashValue LedgerInfoWithSignatures
  maybePartialTc : Option TimeoutCertificate
  authorToVote : BTreeMap Author Vote
  deriving DecidableEq

namespace PendingVotes

def new : PendingVotes where
  liDigestToVotes := ∅
  maybePartialTc := none
  authorToVote := ∅

section

variable (C : Crypto)

variable (s : PendingVotes) (vote : Vote)

/-- The answer to a vote of an author who has voted before, unless it is a new timeout vote. -/
def previouslySeen : Option VoteReceptionResult :=
  match s.authorToVote[vote.author]? with
  | none => none
  | some previouslySeenVote =>
    if vote.ledgerInfo.hash C = previouslySeenVote.ledgerInfo.hash C then
      let newTimeoutVote := vote.isTimeout && !previouslySeenVote.isTimeout
      if newTimeoutVote then none else some .duplicateVote
    else
      some .equivocateVote

def liWithSig : LedgerInfoWithSignatures :=
  (s.liDigestToVotes[vote.ledgerInfo.hash C]?.getD
    { ledgerInfo := vote.ledgerInfo, signatures := ∅ }).addSignature vote.author vote.signature

def store : PendingVotes :=
  { s with
    authorToVote := s.authorToVote.insert vote.author vote
    liDigestToVotes := s.liDigestToVotes.insert (vote.ledgerInfo.hash C) (s.liWithSig C vote) }

variable (s : PendingVotes) (vote : Vote)

def partialTc (timeoutSignature : Signature) : TimeoutCertificate :=
  (s.maybePartialTc.getD (.new vote.timeout)).addSignature vote.author timeoutSignature

/-- The part of `insert_vote` that is reached when there is no quorum certificate. -/
def insertTimeout (validator : ValidatorVerifier)
    (votingPower : Nat) : VoteReceptionResult × PendingVotes :=
  match vote.timeoutSignature with
  | none => (.voteAdded votingPower, s)
  | some timeoutSignature =>
    let tc := s.partialTc vote timeoutSignature
    let s := { s with maybePartialTc := some tc }
    match validator.checkVotingPower tc.signatures.keys with
    | .ok _ => (.newTimeoutCertificate tc, s)
    | .error (.tooLittleVotingPower _ _) => (.voteAdded votingPower, s)
    | .error e => (.errorAddingVote e, s)

def insertVote (validator : ValidatorVerifier) : VoteReceptionResult × PendingVotes :=
  match s.previouslySeen C vote with
  | some result => (result, s)
  | none =>
    let li := s.liWithSig C vote
    match validator.checkVotingPower li.signatures.keys with
    | .ok _ =>
      (.newQuorumCertificate { voteData := vote.voteData, signedLedgerInfo := li },
        s.store C vote)
    | .error (.tooLittleVotingPower votingPower _) =>
      (s.store C vote).insertTimeout vote validator votingPower
    | .error e => (.errorAddingVote e, s.store C vote)

end

end PendingVotes

/-! ## Runs -/

namespace VoteReceptionResult

def accepts : VoteReceptionResult → Bool
  | .duplicateVote | .equivocateVote => false
  | _ => true

def isQuorumCertificate : VoteReceptionResult → Bool
  | .newQuorumCertificate _ => true
  | _ => false

def isTimeoutCertificate : VoteReceptionResult → Bool
  | .newTimeoutCertificate _ => true
  | _ => false

end VoteReceptionResult

abbrev VoteHistory := List (Vote × VoteReceptionResult)

namespace VoteHistory

def accepted (history : VoteHistory) : List Vote :=
  (history.filter fun entry => entry.2.accepts).map Prod.fst

theorem accepted_append (history) (vote : Vote) (result : VoteReceptionResult) :
    accepted (history ++ [(vote, result)]) =
      history.accepted ++ if result.accepts then [vote] else [] := by
  simp only [accepted, filter_append, map_append]
  cases hresult : result.accepts with
  | true | false => simp [hresult]

end VoteHistory

open VoteHistory

namespace PendingVotes

variable (C : Crypto) (validator : ValidatorVerifier)

variable (votes : List Vote)

def run : VoteHistory × PendingVotes :=
  votes.foldl (fun (history, s) vote =>
    let (result, s') := s.insertVote C vote validator
    (history ++ [(vote, result)], s')) ([], new)

def answer (vote : Vote) : VoteReceptionResult :=
  ((run C validator votes).2.insertVote C vote validator).1

theorem run_append (vote) :
    run C validator (votes ++ [vote]) =
      ((run C validator votes).1 ++ [(vote, answer C validator votes vote)],
        ((run C validator votes).2.insertVote C vote validator).2) := by
  simp [run, answer]

theorem accepted_run_append (vote) :
    (run C validator (votes ++ [vote])).1.accepted =
      (run C validator votes).1.accepted ++
        if (answer C validator votes vote).accepts then [vote] else [] := by
  rw [run_append, accepted_append]

end PendingVotes

/-! ## What is counted -/

variable (C : Crypto) (votes : List Vote) (vote : Vote) (digest : HashValue)

def authorsFor : Finset Author :=
  ((votes.filter fun vote => vote.ledgerInfo.hash C = digest).map Vote.author).toFinset

def timeoutAuthors : Finset Author := ((votes.filter Vote.isTimeout).map Vote.author).toFinset

theorem mem_authorsFor {C votes digest author} :
    author ∈ authorsFor C votes digest ↔
      ∃ vote ∈ votes, vote.ledgerInfo.hash C = digest ∧ vote.author = author := by
  simp [authorsFor, and_assoc]

theorem authorsFor_append :
    authorsFor C (votes ++ [vote]) digest =
      if vote.ledgerInfo.hash C = digest then insert vote.author (authorsFor C votes digest)
      else authorsFor C votes digest := by
  ext author
  split
  · next heq => simp [mem_authorsFor, or_and_right, exists_or, heq, eq_comm, or_comm]
  · next hne => simp [mem_authorsFor, or_and_right, exists_or, hne]

theorem mem_timeoutAuthors {votes author} :
    author ∈ timeoutAuthors votes ↔
      ∃ vote ∈ votes, vote.isTimeout = true ∧ vote.author = author := by
  simp [timeoutAuthors, and_assoc]

theorem timeoutAuthors_append :
    timeoutAuthors (votes ++ [vote]) =
      if vote.isTimeout then insert vote.author (timeoutAuthors votes)
      else timeoutAuthors votes := by
  ext author
  split
  · next htimeout =>
      simp [mem_timeoutAuthors, or_and_right, exists_or, htimeout, eq_comm (a := author), or_comm]
  · next hplain => simp [mem_timeoutAuthors, or_and_right, exists_or, hplain]

namespace PendingVotes

variable {C : Crypto} {validator : ValidatorVerifier} {s : PendingVotes} {timeout : Timeout}

def signaturesFor (s : PendingVotes) (digest : HashValue) : BTreeMap AccountAddress Signature :=
  (s.liDigestToVotes[digest]?.map signatures).getD ∅

def timeoutSignatures (s : PendingVotes) : BTreeMap AccountAddress Signature :=
  (s.maybePartialTc.map TimeoutCertificate.signatures).getD ∅

/-- What the structure holds after votes of one epoch and round were accepted. -/
structure Tallied (C : Crypto) (validator : ValidatorVerifier) (timeout : Timeout)
    (accepted : List Vote) (s : PendingVotes) : Prop where
  seen : ∀ vote ∈ accepted, ∃ stored, s.authorToVote[vote.author]? = some stored ∧
    stored.ledgerInfo.hash C = vote.ledgerInfo.hash C
  counted : ∀ digest, authorsOf (s.signaturesFor digest) = authorsFor C accepted digest
  signed : ∀ {digest : HashValue} {li : LedgerInfoWithSignatures},
    s.liDigestToVotes[digest]? = some li →
      (∃ vote ∈ accepted, vote.ledgerInfo = li.ledgerInfo ∧ vote.ledgerInfo.hash C = digest) ∧
      validator.AllSigned C (.ledgerInfo li.ledgerInfo) li.signatures
  timeouts : ∀ {tc : TimeoutCertificate}, s.maybePartialTc = some tc →
    tc.timeout = timeout ∧ validator.AllSigned C (.timeout timeout) tc.signatures

theorem new_tallied : new.Tallied C validator timeout [] where
  seen := nofun
  counted := fun _ => by simp [new, signaturesFor, authorsFor, authorsOf]
  signed := fun h => by simp [new] at h
  timeouts := nofun

structure Checked (C : Crypto) (validator : ValidatorVerifier) (timeout : Timeout) (vote : Vote) :
    Prop where
  verified : vote.verify C validator = .ok ()
  timeout_eq : vote.timeout = timeout

namespace Checked

variable {timeout : Timeout} {vote : Vote}

section

variable (h : Checked C validator timeout vote)

include h

theorem hash_eq : vote.ledgerInfo.consensusDataHash = vote.voteData.hash C := by
  have hverify := h.verified
  simp only [Vote.verify, bind_eq_ok, ensure_eq_ok] at hverify
  exact hverify.choose_spec.1

theorem signed : validator.Signed C (.ledgerInfo vote.ledgerInfo) vote.author vote.signature := by
  have hverify := h.verified
  simp only [Vote.verify, bind_eq_ok, mapErr_eq_ok] at hverify
  obtain ⟨_, -, _, hsigned, -⟩ := hverify
  exact verify_eq_ok.mp hsigned

theorem timeout_signed {signature} (hsignature : vote.timeoutSignature = some signature) :
    validator.Signed C (.timeout timeout) vote.author signature := by
  have hverify := h.verified
  simp only [Vote.verify, bind_eq_ok, hsignature, mapErr_eq_ok] at hverify
  obtain ⟨_, -, _, -, _, hsigned, -⟩ := hverify
  rw [← h.timeout_eq]
  exact verify_eq_ok.mp hsigned

theorem voteData_verify : vote.voteData.verify = .ok () := by
  have hverify := h.verified
  simp only [Vote.verify, bind_eq_ok] at hverify
  obtain ⟨_, -, _, -, hdata⟩ := hverify
  split at hdata
  · rw [bind_eq_ok] at hdata
    exact hdata.choose_spec.2
  · exact hdata

end

end Checked

theorem previouslySeen_cases (s : PendingVotes) (vote) :
    s.previouslySeen C vote = some .duplicateVote ∨
      s.previouslySeen C vote = some .equivocateVote ∨
      s.previouslySeen C vote = none ∧ ∀ stored, s.authorToVote[vote.author]? = some stored →
        vote.ledgerInfo.hash C = stored.ledgerInfo.hash C := by
  unfold previouslySeen
  cases s.authorToVote[vote.author]? with
  | none => exact .inr (.inr ⟨rfl, nofun⟩)
  | some previous =>
    by_cases hdigest : vote.ledgerInfo.hash C = previous.ledgerInfo.hash C
    · simp only [hdigest, if_true]
      split
      · refine .inr (.inr ⟨rfl, ?_⟩)
        rintro _ ⟨⟩
        rfl
      · exact .inl rfl
    · exact .inr (.inl (if_neg hdigest))

section

variable {timeout : Timeout} {accepted : List Vote} {vote : Vote}
  (h : s.Tallied C validator timeout accepted) (hvote : Checked C validator timeout vote)
  (hinj : ∀ vote' ∈ accepted, vote'.ledgerInfo.hash C = vote.ledgerInfo.hash C →
    vote'.ledgerInfo = vote.ledgerInfo)

include h

theorem liWithSig_authors : authorsOf (s.liWithSig C vote).signatures =
    authorsFor C (accepted ++ [vote]) (vote.ledgerInfo.hash C) := by
  rw [authorsFor_append, if_pos rfl, ← h.counted]
  simp only [liWithSig, addSignature, authorsOf_insertIfNew, signaturesFor]
  cases s.liDigestToVotes[vote.ledgerInfo.hash C]? with
  | none | some => rfl

include hvote hinj

theorem liWithSig_spec : (s.liWithSig C vote).ledgerInfo = vote.ledgerInfo ∧
    validator.AllSigned C (.ledgerInfo vote.ledgerInfo) (s.liWithSig C vote).signatures := by
  simp only [liWithSig, addSignature]
  cases hli : s.liDigestToVotes[vote.ledgerInfo.hash C]? with
  | none => exact ⟨rfl, allSigned_empty.insertIfNew hvote.signed⟩
  | some =>
    obtain ⟨⟨vote', hmem, heq, hdigest⟩, hsigned⟩ := h.signed hli
    rw [hinj vote' hmem hdigest] at heq
    rw [← heq] at hsigned
    exact ⟨heq.symm, hsigned.insertIfNew hvote.signed⟩

theorem Tallied.store (hdigest : ∀ stored, s.authorToVote[vote.author]? = some stored →
      vote.ledgerInfo.hash C = stored.ledgerInfo.hash C) :
    (s.store C vote).Tallied C validator timeout (accepted ++ [vote]) where
  seen := by
    intro vote' hvote'
    simp only [PendingVotes.store, Std.ExtTreeMap.getElem?_insert,
      Std.LawfulEqCmp.compare_eq_iff_eq]
    by_cases hauthor : vote.author = vote'.author
    · refine ⟨vote, if_pos hauthor, ?_⟩
      rcases mem_append.mp hvote' with hold | hnew
      · obtain ⟨stored, hstored, heq⟩ := h.seen vote' hold
        rw [← hauthor] at hstored
        rw [hdigest stored hstored, heq]
      · rw [mem_singleton.mp hnew]
    · rcases mem_append.mp hvote' with hold | hnew
      · rw [if_neg hauthor]
        exact h.seen vote' hold
      · rw [mem_singleton.mp hnew] at hauthor
        exact absurd rfl hauthor
  counted := by
    intro digest
    by_cases heq : vote.ledgerInfo.hash C = digest
    · subst heq
      rw [← liWithSig_authors h]
      simp [signaturesFor, PendingVotes.store]
    · rw [authorsFor_append, if_neg heq, ← h.counted]
      simp [signaturesFor, PendingVotes.store, Std.ExtTreeMap.getElem?_insert,
        Std.LawfulEqCmp.compare_eq_iff_eq, heq]
  signed := by
    intro _ _ hli
    simp only [PendingVotes.store, Std.ExtTreeMap.getElem?_insert,
      Std.LawfulEqCmp.compare_eq_iff_eq] at hli
    split at hli
    · next heq =>
        obtain rfl := Option.some.inj hli
        obtain ⟨hli, hsigned⟩ := liWithSig_spec h hvote hinj
        rw [hli]
        exact ⟨⟨vote, by simp, rfl, heq⟩, hsigned⟩
    · obtain ⟨⟨vote', hmem, hrest⟩, hsigned⟩ := h.signed hli
      exact ⟨⟨vote', mem_append_left _ hmem, hrest⟩, hsigned⟩
  timeouts := h.timeouts

end

/-- What a vote does to the structure and to the accepted votes, whatever its answer. -/
structure Answered (C : Crypto) (validator : ValidatorVerifier) (timeout : Timeout)
    (accepted : List Vote) (s : PendingVotes) (vote : Vote) (result : VoteReceptionResult)
    (s' : PendingVotes) : Prop where
  tallied : s'.Tallied C validator timeout (accepted ++ if result.accepts then [vote] else [])
  quorumCertificate_iff : result.isQuorumCertificate = true ↔ result.accepts = true ∧
    validator.quorumVotingPower ≤ validator.power (authorsFor C
      (accepted ++ if result.accepts then [vote] else []) (vote.ledgerInfo.hash C))
  quorumCertificate : ∀ qc, result = .newQuorumCertificate qc → qc.verify C validator = .ok ()
  timeoutAuthors : result.isQuorumCertificate = false →
    authorsOf s.timeoutSignatures = timeoutAuthors accepted → authorsOf s'.timeoutSignatures =
      timeoutAuthors (accepted ++ if result.accepts then [vote] else [])
  timeoutCertificate_iff : result.isQuorumCertificate = false →
    (result.isTimeoutCertificate = true ↔ result.accepts = true ∧ vote.isTimeout = true ∧
      validator.quorumVotingPower ≤ validator.power (authorsOf s'.timeoutSignatures))
  timeoutCertificate : ∀ tc, result = .newTimeoutCertificate tc → tc.verify C validator = .ok ()
  unchanged : result.accepts = false → s' = s

theorem Tallied.answered_rejected {accepted vote result}
    (h : s.Tallied C validator timeout accepted) (hrejected : result.accepts = false) :
    Answered C validator timeout accepted s vote result s := by
  have hnone : result.isQuorumCertificate = false ∧ result.isTimeoutCertificate = false := by
    cases result with
    | duplicateVote | equivocateVote => exact ⟨rfl, rfl⟩
    | _ => cases hrejected
  constructor
  case tallied => simpa [hrejected] using h
  case quorumCertificate_iff => simp [hnone, hrejected]
  case quorumCertificate | timeoutCertificate =>
    rintro _ rfl
    cases hrejected
  case timeoutAuthors => simp [hrejected]
  case timeoutCertificate_iff => simp [hnone, hrejected]
  case unchanged => exact fun _ => rfl

section

variable {timeout : Timeout} {accepted : List Vote} {vote : Vote} {signature : Signature}

theorem partialTc_spec (h : s.Tallied C validator timeout accepted)
    (hvote : Checked C validator timeout vote)
    (hsignature : vote.timeoutSignature = some signature) :
    (s.partialTc vote signature).timeout = timeout ∧
      validator.AllSigned C (.timeout timeout) (s.partialTc vote signature).signatures ∧
      authorsOf (s.partialTc vote signature).signatures =
        insert vote.author (authorsOf s.timeoutSignatures) := by
  have hsigned := hvote.timeout_signed hsignature
  simp only [partialTc, TimeoutCertificate.addSignature, authorsOf_insertIfNew, timeoutSignatures]
  cases htc : s.maybePartialTc with
  | none => exact ⟨hvote.timeout_eq, allSigned_empty.insertIfNew hsigned, rfl⟩
  | some =>
    obtain ⟨heq, hall⟩ := h.timeouts htc
    exact ⟨heq, hall.insertIfNew hsigned, rfl⟩

theorem Tallied.withTimeout (h : s.Tallied C validator timeout accepted) {tc}
    (htimeout : tc.timeout = timeout)
    (hsigned : validator.AllSigned C (.timeout timeout) tc.signatures) :
    ({ s with maybePartialTc := some tc }).Tallied C validator timeout accepted where
  seen := h.seen
  counted := h.counted
  signed := h.signed
  timeouts := by
    rintro _ ⟨⟩
    exact ⟨htimeout, hsigned⟩

variable (hv : validator.NoOverflow) (h : s.Tallied C validator timeout accepted)
  (hvote : Checked C validator timeout vote)

include hv h hvote

theorem insertTimeout_eq (hsignature : vote.timeoutSignature = some signature) (votingPower : Nat) :
    s.insertTimeout vote validator votingPower =
      (if validator.quorumVotingPower ≤
          validator.power (authorsOf (s.partialTc vote signature).signatures) then
        .newTimeoutCertificate (s.partialTc vote signature)
      else .voteAdded votingPower,
      { s with maybePartialTc := some (s.partialTc vote signature) }) := by
  obtain ⟨-, hall, -⟩ := partialTc_spec h hvote hsignature
  have hcheck := hall.checkVotingPower hv
  simp only [insertTimeout, hsignature, hcheck]
  split_ifs <;> rfl

variable (hinj : ∀ vote' ∈ accepted, vote'.ledgerInfo.hash C = vote.ledgerInfo.hash C →
  vote'.ledgerInfo = vote.ledgerInfo)

include hinj

theorem insertVote_eq (hseen : s.previouslySeen C vote = none) :
    s.insertVote C vote validator =
      if validator.quorumVotingPower ≤
          validator.power (authorsFor C (accepted ++ [vote]) (vote.ledgerInfo.hash C)) then
        (.newQuorumCertificate
          { voteData := vote.voteData, signedLedgerInfo := s.liWithSig C vote }, s.store C vote)
      else (s.store C vote).insertTimeout vote validator
        (validator.power (authorsFor C (accepted ++ [vote]) (vote.ledgerInfo.hash C))) := by
  have hcheck := (liWithSig_spec h hvote hinj).2.checkVotingPower hv
  rw [liWithSig_authors h] at hcheck
  simp only [insertVote, hseen, hcheck]
  split_ifs <;> rfl

theorem quorumCert_verify (hpower : validator.quorumVotingPower ≤
      validator.power (authorsFor C (accepted ++ [vote]) (vote.ledgerInfo.hash C))) :
    QuorumCert.verify C { voteData := vote.voteData, signedLedgerInfo := s.liWithSig C vote }
      validator = .ok () := by
  obtain ⟨hli, hsigned⟩ := liWithSig_spec h hvote hinj
  rw [← liWithSig_authors h] at hpower
  refine QuorumCert.verify_of_signed hv ?_ ?_ ?_ hvote.voteData_verify
  · simp only [QuorumCert.ledgerInfo, hli]
    exact hvote.hash_eq
  · exact Nat.ne_zero_of_lt (VoteData.verify_round_lt hvote.voteData_verify)
  · rw [LedgerInfoWithSignatures.QuorumSigned, hli]
    exact hsigned.quorumSigned hpower

theorem insertTimeout_answered (hdigest : ∀ stored, s.authorToVote[vote.author]? = some stored →
      vote.ledgerInfo.hash C = stored.ledgerInfo.hash C) (hpower : ¬validator.quorumVotingPower ≤
      validator.power (authorsFor C (accepted ++ [vote]) (vote.ledgerInfo.hash C)))
    (votingPower : Nat) :
    Answered C validator timeout accepted s vote
      ((s.store C vote).insertTimeout vote validator votingPower).1
      ((s.store C vote).insertTimeout vote validator votingPower).2 := by
  have hstore := h.store hvote hinj hdigest
  cases hsignature : vote.timeoutSignature with
  | none =>
    have hplain : vote.isTimeout = false := by simp [Vote.isTimeout, hsignature]
    have hresult : (s.store C vote).insertTimeout vote validator votingPower =
        (.voteAdded votingPower, s.store C vote) := by simp [insertTimeout, hsignature]
    rw [hresult]
    refine ⟨hstore, iff_of_false Bool.false_ne_true fun hand => hpower hand.2, nofun,
      fun _ hauthors => ?_, fun _ => ?_, nofun, nofun⟩
    · change _ = timeoutAuthors (accepted ++ [vote])
      rw [timeoutAuthors_append, hplain]
      exact hauthors
    · rw [hplain]
      exact iff_of_false Bool.false_ne_true fun hand => Bool.false_ne_true hand.2.1
  | some signature =>
    have htimeout : vote.isTimeout = true := by simp [Vote.isTimeout, hsignature]
    obtain ⟨heq, hall, hauthors⟩ := partialTc_spec hstore hvote hsignature
    have htallied := hstore.withTimeout heq hall
    have hadded (hold : authorsOf s.timeoutSignatures = timeoutAuthors accepted) :
        authorsOf ((s.store C vote).partialTc vote signature).signatures =
          timeoutAuthors (accepted ++ [vote]) := by
      rw [timeoutAuthors_append, htimeout, if_pos rfl, ← hold]
      exact hauthors
    rw [insertTimeout_eq hv hstore hvote hsignature]
    split
    · next hquorum =>
        refine ⟨htallied, iff_of_false Bool.false_ne_true fun hand => hpower hand.2, nofun,
          fun _ => hadded, fun _ => iff_of_true rfl ⟨rfl, htimeout, hquorum⟩, ?_, nofun⟩
        rintro _ ⟨⟩
        refine TimeoutCertificate.verify_of_signed hv ?_
        rw [heq]
        exact hall.quorumSigned hquorum
    · next hquorum =>
        exact ⟨htallied, iff_of_false Bool.false_ne_true fun hand => hpower hand.2, nofun,
          fun _ => hadded, fun _ => iff_of_false Bool.false_ne_true fun hand => hquorum hand.2.2,
          nofun, nofun⟩

theorem insertVote_answered :
    Answered C validator timeout accepted s vote (s.insertVote C vote validator).1
      (s.insertVote C vote validator).2 := by
  rcases s.previouslySeen_cases (C := C) vote with hdup | hequiv | ⟨hseen, hdigest⟩
  · simp only [insertVote, hdup]
    exact h.answered_rejected rfl
  · simp only [insertVote, hequiv]
    exact h.answered_rejected rfl
  · rw [insertVote_eq hv h hvote hinj hseen]
    split
    · next hpower =>
        have hverify := quorumCert_verify hv h hvote hinj hpower
        refine ⟨h.store hvote hinj hdigest, iff_of_true rfl ⟨rfl, hpower⟩, ?_, nofun, nofun, nofun,
          nofun⟩
        rintro _ ⟨⟩
        exact hverify
    · next hpower => exact insertTimeout_answered hv h hvote hinj hdigest hpower _

end

/-! ## Every run -/

/-- The votes of a run passed their checks, for one epoch and round, and the digests of their
ledger infos do not collide. -/
structure CheckedRun (C : Crypto) (validator : ValidatorVerifier) (timeout : Timeout)
    (votes : List Vote) : Prop where
  checked : ∀ vote ∈ votes, Checked C validator timeout vote
  digest_inj : ∀ vote ∈ votes, ∀ vote' ∈ votes,
    vote.ledgerInfo.hash C = vote'.ledgerInfo.hash C → vote.ledgerInfo = vote'.ledgerInfo

section

variable {timeout : Timeout} {votes : List Vote} {vote : Vote}

theorem CheckedRun.init (h : CheckedRun C validator timeout (votes ++ [vote])) :
    CheckedRun C validator timeout votes where
  checked := fun vote' hmem => h.checked vote' (mem_append_left _ hmem)
  digest_inj := fun vote' hmem vote'' hmem' =>
    h.digest_inj vote' (mem_append_left _ hmem) vote'' (mem_append_left _ hmem')

theorem run_map_fst (votes : List Vote) : (run C validator votes).1.map Prod.fst = votes := by
  induction votes using reverseRecOn with
  | nil => rfl
  | append_singleton _ _ ih => rw [run_append, map_append, ih, map_singleton]

theorem mem_of_mem_accepted {vote} (h : vote ∈ (run C validator votes).1.accepted) :
    vote ∈ votes := by
  rw [← @run_map_fst C validator votes]
  simp only [accepted, mem_map, mem_filter] at h
  obtain ⟨_, ⟨hmem, -⟩, rfl⟩ := h
  exact mem_map_of_mem hmem

theorem CheckedRun.inj_last (h : CheckedRun C validator timeout (votes ++ [vote])) :
    ∀ vote' ∈ (run C validator votes).1.accepted,
      vote'.ledgerInfo.hash C = vote.ledgerInfo.hash C → vote'.ledgerInfo = vote.ledgerInfo :=
  fun vote' hmem => h.digest_inj vote' (mem_append_left _ (mem_of_mem_accepted hmem)) vote
    (mem_append_right _ mem_cons_self)

theorem CheckedRun.checked_last (h : CheckedRun C validator timeout (votes ++ [vote])) :
    Checked C validator timeout vote :=
  h.checked vote (mem_append_right _ mem_cons_self)

theorem run_tallied (hv : validator.NoOverflow) (h : CheckedRun C validator timeout votes) :
    (run C validator votes).2.Tallied C validator timeout (run C validator votes).1.accepted := by
  induction votes using reverseRecOn with
  | nil => exact new_tallied
  | append_singleton _ _ ih =>
    rw [accepted_run_append, run_append]
    exact (insertVote_answered hv (ih h.init) h.checked_last h.inj_last).tallied

theorem run_answered (hv : validator.NoOverflow)
    (h : CheckedRun C validator timeout (votes ++ [vote])) :
    Answered C validator timeout (run C validator votes).1.accepted (run C validator votes).2
      vote (answer C validator votes vote) (run C validator (votes ++ [vote])).2 := by
  rw [run_append]
  exact insertVote_answered hv (run_tallied hv h.init) h.checked_last h.inj_last

def NoQuorumCertificate (history : VoteHistory) : Prop :=
  ∀ entry ∈ history, entry.2.isQuorumCertificate = false

theorem noQuorumCertificate_run_append :
    NoQuorumCertificate (run C validator (votes ++ [vote])).1 ↔
      NoQuorumCertificate (run C validator votes).1 ∧
        (answer C validator votes vote).isQuorumCertificate = false := by
  simp only [run_append, NoQuorumCertificate, mem_append, mem_singleton, or_imp,
    forall_and, forall_eq]

section

variable (hv : validator.NoOverflow)

include hv

theorem run_timeoutAuthors (h : CheckedRun C validator timeout votes)
    (hnone : NoQuorumCertificate (run C validator votes).1) :
    authorsOf (run C validator votes).2.timeoutSignatures =
      timeoutAuthors (run C validator votes).1.accepted := by
  induction votes using reverseRecOn with
  | nil => rfl
  | append_singleton _ _ ih =>
    obtain ⟨hbefore, hlast⟩ := noQuorumCertificate_run_append.mp hnone
    rw [accepted_run_append]
    exact (run_answered hv h).timeoutAuthors hlast (ih h.init hbefore)

/-- The first vote is accepted, so that a run without a quorum certificate needs a positive
quorum. -/
theorem quorum_pos (h : CheckedRun C validator timeout votes) (hne : votes ≠ [])
    (hnone : NoQuorumCertificate (run C validator votes).1) : 0 < validator.quorumVotingPower := by
  induction votes using reverseRecOn with
  | nil => exact absurd rfl hne
  | append_singleton votes vote ih =>
    obtain ⟨hbefore, hlast⟩ := noQuorumCertificate_run_append.mp hnone
    by_cases hnil : votes = []
    · subst hnil
      have hseen : new.previouslySeen C vote = none := by simp [previouslySeen, new]
      have heq := insertVote_eq hv (run_tallied hv h.init) h.checked_last h.inj_last hseen
      by_contra hzero
      rw [if_pos (by omega)] at heq
      rw [answer, heq] at hlast
      cases hlast
    · exact ih h.init hnil hbefore

theorem answer_isTimeoutCertificate_iff (h : CheckedRun C validator timeout (votes ++ [vote]))
    (hnone : NoQuorumCertificate (run C validator (votes ++ [vote])).1) :
    (answer C validator votes vote).isTimeoutCertificate = true ↔
      (answer C validator votes vote).accepts = true ∧ vote.isTimeout = true ∧
        validator.quorumVotingPower ≤
          validator.power (timeoutAuthors (run C validator (votes ++ [vote])).1.accepted) := by
  obtain ⟨-, hlast⟩ := noQuorumCertificate_run_append.mp hnone
  rw [(run_answered hv h).timeoutCertificate_iff hlast, run_timeoutAuthors hv h hnone]

theorem run_isTimeoutCertificate_iff (h : CheckedRun C validator timeout votes)
    (hpos : 0 < validator.quorumVotingPower)
    (hnone : NoQuorumCertificate (run C validator votes).1) :
    (∃ entry ∈ (run C validator votes).1, entry.2.isTimeoutCertificate = true) ↔
      validator.quorumVotingPower ≤
        validator.power (timeoutAuthors (run C validator votes).1.accepted) := by
  induction votes using reverseRecOn with
  | nil => simpa [run, accepted, timeoutAuthors, power] using hpos.ne'
  | append_singleton votes vote ih =>
    obtain ⟨hbefore, -⟩ := noQuorumCertificate_run_append.mp hnone
    have hlast := answer_isTimeoutCertificate_iff hv h hnone
    have hsplit : (∃ entry ∈ (run C validator (votes ++ [vote])).1,
        entry.2.isTimeoutCertificate = true) ↔
          validator.quorumVotingPower ≤
              validator.power (timeoutAuthors (run C validator votes).1.accepted) ∨
            (answer C validator votes vote).isTimeoutCertificate = true := by
      simp [run_append, ih h.init hbefore]
    rw [hsplit]
    rw [hlast, accepted_run_append]
    by_cases hadded : (answer C validator votes vote).accepts = true ∧ vote.isTimeout = true
    · -- the power grows with the author of the vote
      have hle : validator.power (timeoutAuthors (run C validator votes).1.accepted) ≤
          validator.power (insert vote.author
            (timeoutAuthors (run C validator votes).1.accepted)) :=
        Finset.sum_le_sum_of_subset (Finset.subset_insert _ _)
      simp only [hadded, if_true, timeoutAuthors_append, true_and]
      exact ⟨fun hor => hor.elim (fun hquorum => hquorum.trans hle) id, .inr⟩
    · have hsame : timeoutAuthors ((run C validator votes).1.accepted ++
          if (answer C validator votes vote).accepts then [vote] else []) =
          timeoutAuthors (run C validator votes).1.accepted := by
        split
        next haccepts =>
          rw [timeoutAuthors_append, if_neg fun htimeout => hadded ⟨haccepts, htimeout⟩]
        · rw [append_nil]
      rw [hsame, ← and_assoc]
      simp [hadded]

end

end

structure Aggregated (C : Crypto) (validator : ValidatorVerifier) (votes : List Vote)
    (vote : Vote) : Prop where
  counted_once : ∀ author digest digest',
    author ∈ authorsOf ((run C validator (votes ++ [vote])).2.signaturesFor digest) →
    author ∈ authorsOf ((run C validator (votes ++ [vote])).2.signaturesFor digest') →
      digest = digest'
  quorumCertificate_iff : (answer C validator votes vote).isQuorumCertificate = true ↔
    (answer C validator votes vote).accepts = true ∧
      validator.quorumVotingPower ≤ validator.power (authorsFor C
        (run C validator (votes ++ [vote])).1.accepted (vote.ledgerInfo.hash C))
  quorumCertificate : ∀ qc, answer C validator votes vote = .newQuorumCertificate qc →
    qc.verify C validator = .ok ()
  timeoutCertificate_iff : NoQuorumCertificate (run C validator (votes ++ [vote])).1 →
    ((answer C validator votes vote).isTimeoutCertificate = true ↔
      (answer C validator votes vote).accepts = true ∧ vote.isTimeout = true ∧
        validator.quorumVotingPower ≤
          validator.power (timeoutAuthors (run C validator (votes ++ [vote])).1.accepted))
  returned_iff : NoQuorumCertificate (run C validator (votes ++ [vote])).1 →
    ((∃ entry ∈ (run C validator (votes ++ [vote])).1, entry.2.isTimeoutCertificate = true) ↔
      validator.quorumVotingPower ≤
        validator.power (timeoutAuthors (run C validator (votes ++ [vote])).1.accepted))
  timeoutCertificate : ∀ tc, answer C validator votes vote = .newTimeoutCertificate tc →
    tc.verify C validator = .ok ()
  unchanged : answer C validator votes vote = .duplicateVote ∨
      answer C validator votes vote = .equivocateVote →
    (run C validator (votes ++ [vote])).2 = (run C validator votes).2

theorem Tallied.counted_once {accepted} (h : s.Tallied C validator timeout accepted)
    {author digest digest'} (hauthor : author ∈ authorsOf (s.signaturesFor digest))
    (hauthor' : author ∈ authorsOf (s.signaturesFor digest')) : digest = digest' := by
  rw [h.counted] at hauthor hauthor'
  obtain ⟨vote, hmem, rfl, rfl⟩ := mem_authorsFor.mp hauthor
  obtain ⟨vote', hmem', rfl, heq⟩ := mem_authorsFor.mp hauthor'
  obtain ⟨_, hstored, hdigest⟩ := h.seen vote hmem
  obtain ⟨_, hstored', hdigest'⟩ := h.seen vote' hmem'
  rw [heq] at hstored'
  obtain rfl := Option.some.inj (hstored.symm.trans hstored')
  exact hdigest.symm.trans hdigest'

/-- In every run of checked votes, the certificates are returned when there is a quorum. -/
theorem run_aggregated (C : Crypto) (validator : ValidatorVerifier) (hv : validator.NoOverflow)
    (timeout : Timeout) (votes : List Vote) (vote : Vote)
    (h : CheckedRun C validator timeout (votes ++ [vote])) : Aggregated C validator votes vote where
  counted_once := fun _ _ _ => (run_tallied hv h).counted_once
  quorumCertificate_iff := by
    rw [accepted_run_append]
    exact (run_answered hv h).quorumCertificate_iff
  quorumCertificate := (run_answered hv h).quorumCertificate
  timeoutCertificate_iff := answer_isTimeoutCertificate_iff hv h
  returned_iff := by
    intro hnone
    have hne : votes ++ [vote] ≠ [] := append_ne_nil_of_right_ne_nil _ (cons_ne_nil _ _)
    exact run_isTimeoutCertificate_iff hv h (quorum_pos hv h hne hnone) hnone
  timeoutCertificate := (run_answered hv h).timeoutCertificate
  unchanged := by
    intro hrejected
    apply (run_answered hv h).unchanged
    rcases hrejected with heq | heq
    all_goals rw [heq]; rfl

/-! ## Two validators -/

def byCommitRound : Crypto :=
  { Crypto.concrete with
    hash := fun
      | .ledgerInfo li => li.commitInfo.round
      | _ => 0 }

def pair : ValidatorVerifier where
  addressToValidatorInfo := ((∅ : BTreeMap AccountAddress ValidatorConsensusInfo).insert 1
    { publicKey := 7, votingPower := 1 }).insert 2 { publicKey := 8, votingPower := 1 }
  quorumVotingPower := 2
  totalVotingPower := 2

def pairVote (author : Author) (key : PublicKey) (committed : Nat) : Vote where
  voteData := {
    proposed := { BlockInfo.empty with round := 1 }
    parent := BlockInfo.empty }
  author := author
  ledgerInfo := {
    commitInfo := { BlockInfo.empty with round := committed }
    consensusDataHash := 0 }
  signature := key
  timeoutSignature := some key

theorem run_aggregated_pair : CheckedRun byCommitRound pair { epoch := 0, round := 1 }
      ([pairVote 1 7 0] ++ [pairVote 2 8 1]) ∧
    answer byCommitRound pair [] (pairVote 1 7 0) = .voteAdded 1 ∧
    (answer byCommitRound pair [pairVote 1 7 0] (pairVote 2 8 1)).isTimeoutCertificate = true ∧
    Aggregated byCommitRound pair [pairVote 1 7 0] (pairVote 2 8 1) := by
  have hrun : CheckedRun byCommitRound pair { epoch := 0, round := 1 }
      ([pairVote 1 7 0] ++ [pairVote 2 8 1]) := by
    refine ⟨fun vote hvote => ?_, fun _ hvote _ hvote' hdigest => ?_⟩
    · rcases mem_pair.mp hvote with rfl | rfl
      · exact ⟨rfl, rfl⟩
      · exact ⟨rfl, rfl⟩
    · rcases mem_pair.mp hvote with rfl | rfl
      all_goals rcases mem_pair.mp hvote' with rfl | rfl
      · rfl
      · cases hdigest
      · cases hdigest
      · rfl
  have hv : pair.NoOverflow := by
    unfold NoOverflow
    decide +kernel
  exact ⟨hrun, by decide +kernel, by decide +kernel, run_aggregated _ _ hv _ _ _ hrun⟩

end PendingVotes

end Loki.Diem
