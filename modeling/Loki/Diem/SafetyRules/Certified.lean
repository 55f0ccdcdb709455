import Loki.Diem.SafetyRules.NoDoubleVote

/-!
# Only certified blocks are committed by a signature

The commit info that a vote signs is copied from the certificate in the proposal.  A certificate
of round 0 carries no signatures, so what it names is free.  The three-chain rule never commits
from such a certificate; the two-chain rule does, at a block of round 1.
-/

namespace Loki.Diem

open Loki.Foundation List

/-- The certificate's vote data names the block info and carries the signatures of a quorum. -/
structure QuorumCert.Certifies (C : Crypto) (verifier : ValidatorVerifier) (qc : QuorumCert)
    (info : BlockInfo) : Prop where
  names : info = qc.certifiedBlock ∨ info = qc.parentBlock
  hash_eq : qc.ledgerInfo.consensusDataHash = qc.voteData.hash C
  signed : qc.signedLedgerInfo.QuorumSigned C verifier

/-- The ledger info commits nothing, the genesis block of the epoch, or a certified block. -/
def LedgerInfo.CommitsCertified (C : Crypto) (genesis : Nat → BlockInfo) (state : EpochState)
    (qc : QuorumCert) (li : LedgerInfo) : Prop :=
  li.commitInfo ≠ .empty →
    li.commitInfo = genesis state.epoch ∨ qc.Certifies C state.verifier li.commitInfo

/-- A two-chain vote on a block of round 1 is asked for over a certificate of round 0 only if that
certificate is the one of the genesis block, names nothing, or no power is needed for a quorum. -/
def RulesOp.GenesisGenuine (genesis : Nat → BlockInfo) (rules : SafetyRules) : RulesOp → Prop
  | .constructAndSignVoteTwoChain _ proposal _ =>
    let block := proposal.voteProposal.block
    block.quorumCert.certifiedBlock.round = 0 → block.round = 1 → ∀ state ∈ rules.epochState,
      block.quorumCert.certifiedBlock = genesis state.epoch ∨
        block.quorumCert.certifiedBlock = .empty ∨
        state.verifier.quorumVotingPower = 0
  | _ => True

namespace SafetyRules

variable {C : Crypto} {rules : SafetyRules} {data : SafetyData} {block : Block} {vote : Vote}
  {state : EpochState} {genesis : Nat → BlockInfo}

theorem NewVote.qc_verified {ledgerInfo : Except Error LedgerInfo}
    (h : NewVote C rules data block ledgerInfo vote) (hstate : rules.epochState = some state) :
    block.quorumCert.Verified C state.verifier := by
  obtain ⟨_, hstate', hverified⟩ := h.verified
  rw [hstate] at hstate'
  cases hstate'
  exact hverified.qc

theorem NewVote3.commitsCertified (h : NewVote3 C rules data block vote)
    (hstate : rules.epochState = some state) :
    vote.ledgerInfo.CommitsCertified C genesis state block.quorumCert := by
  intro hne
  have hqc := h.qc_verified hstate
  rcases (constructLedgerInfo_spec h.ledgerInfo_eq).2 with hempty | ⟨hparent, _, -⟩
  · exact absurd hempty hne
  · refine .inr ⟨.inr hparent, hqc.hash_eq, hqc.signed ?_⟩
    omega

theorem quorumSigned_empty_iff {verifier} {li : LedgerInfoWithSignatures}
    (h : li.signatures = ∅) : li.QuorumSigned C verifier ↔ verifier.quorumVotingPower = 0 := by
  have hauthors : authorsOf li.signatures = ∅ := by simp [h, authorsOf]
  constructor
  · intro hsigned
    have hle := hsigned.quorum.power_le
    rw [hauthors] at hle
    simpa [ValidatorVerifier.power] using hle
  · intro hzero
    refine ⟨⟨?_, ?_⟩, fun _ _ hget => ?_⟩
    · simp [hauthors]
    · simp [hzero]
    · simp [h] at hget

theorem NewVote2.commitsCertified_iff {now proposal tc}
    (h : NewVote2 C tc rules data proposal.voteProposal.block vote)
    (hstate : rules.epochState = some state) :
    vote.ledgerInfo.CommitsCertified C genesis state
        proposal.voteProposal.block.quorumCert ↔
      (RulesOp.constructAndSignVoteTwoChain now proposal tc).GenesisGenuine genesis rules := by
  have hqc := h.qc_verified hstate
  have hcommit := (constructLedgerInfo2chain_spec h.ledgerInfo_eq).2
  simp only [LedgerInfo.CommitsCertified, RulesOp.GenesisGenuine, hcommit]
  by_cases hnext : proposal.voteProposal.block.quorumCert.certifiedBlock.round + 1 =
      proposal.voteProposal.block.round
  · rw [if_pos hnext]
    by_cases hzero : proposal.voteProposal.block.quorumCert.certifiedBlock.round = 0
    · -- the certificate carries no signatures
      have hsigned := @quorumSigned_empty_iff C state.verifier _ (hqc.genesis hzero).2.2
      have hcertifies : proposal.voteProposal.block.quorumCert.Certifies C state.verifier
          proposal.voteProposal.block.quorumCert.certifiedBlock ↔
            state.verifier.quorumVotingPower = 0 :=
        ⟨fun hcert => hsigned.mp hcert.signed,
          fun hquorum => ⟨.inl rfl, hqc.hash_eq, hsigned.mpr hquorum⟩⟩
      have hround : proposal.voteProposal.block.round = 1 := by omega
      simp only [hzero, hround, hstate, Option.mem_def, Option.some.injEq, forall_eq', forall_const]
      tauto
    · refine iff_of_true (fun _ => .inr ⟨.inl rfl, hqc.hash_eq, hqc.signed hzero⟩) ?_
      exact fun hround => absurd hround hzero
  · rw [if_neg hnext]
    refine iff_of_true (fun hne => absurd rfl hne) fun _ _ => ?_
    omega

theorem votes_commitsCertified_iff {op : RulesOp} (h : op.Votes C rules data block vote) :
    ∃ state, rules.epochState = some state ∧
      (vote.ledgerInfo.CommitsCertified C genesis state block.quorumCert ↔
        op.GenesisGenuine genesis rules) := by
  cases op with
  | constructAndSignVote =>
    obtain ⟨-, hvote⟩ := h
    obtain ⟨state, hstate, -⟩ := hvote.verified
    exact ⟨state, hstate, iff_of_true (hvote.commitsCertified hstate) trivial⟩
  | constructAndSignVoteTwoChain =>
    obtain ⟨rfl, hvote⟩ := h
    obtain ⟨state, hstate, -⟩ := hvote.verified
    exact ⟨state, hstate, hvote.commitsCertified_iff hstate⟩
  | _ => exact h.elim

def Event.SignsCertified (C : Crypto) (genesis : Nat → BlockInfo) (event : Event)
    (vote : Vote) : Prop :=
  ∃ data block state, event.op.Votes C event.pre data block vote ∧
    event.pre.epochState = some state ∧
    vote.ledgerInfo.CommitsCertified C genesis state block.quorumCert

theorem event_vote_cases (hc : rules.Coherent) (call : RulesOp × List IoOutcome)
    (hgenuine : (event C rules call).op.GenesisGenuine genesis (event C rules call).pre)
    (h : (event C rules call).output = .vote vote ∨
      ∃ d, (event C rules call).post.safetyData? = some d ∧ d.lastVote = some vote) :
    (∃ d, rules.safetyData? = some d ∧ d.lastVote = some vote) ∨
      (event C rules call).SignsCertified C genesis vote := by
  rcases (event_dataStep hc call).1.vote_cases h with hstored | ⟨data, block, -, hvotes⟩
  · exact .inl hstored
  · obtain ⟨state, hstate, hiff⟩ := votes_commitsCertified_iff hvotes
    exact .inr ⟨data, block, state, hvotes, hstate, hiff.mpr hgenuine⟩

theorem trace_votes_certified (calls : List (RulesOp × List IoOutcome)) :
    ∀ (rules) (good : Vote → Prop), rules.Coherent →
      (∀ data vote, rules.safetyData? = some data → data.lastVote = some vote → good vote) →
      (∀ event ∈ trace C rules calls, event.op.GenesisGenuine genesis event.pre) →
      ∀ before event after, trace C rules calls = before ++ event :: after →
        ∀ vote, event.output = .vote vote → good vote ∨
          ∃ signing ∈ before ++ [event], signing.SignsCertified C genesis vote := by
  induction calls with
  | nil =>
    intro rules good hc hgood hgenuine before event after htrace
    exact absurd htrace (by simp [trace])
  | cons call _ ih =>
    intro rules good hc hgood hgenuine before e after htrace vote hvote
    have hfirst := hgenuine (event C rules call) mem_cons_self
    cases before with
    | nil =>
      obtain ⟨rfl, -⟩ := cons.inj htrace
      rcases event_vote_cases hc call hfirst (.inl hvote) with ⟨d, hd, hlast⟩ | hsigns
      · exact .inl (hgood d vote hd hlast)
      · exact .inr ⟨_, mem_singleton_self _, hsigns⟩
    | cons first before =>
      -- what the first call stores is good for the rest of the run
      obtain ⟨rfl, hrest⟩ := cons.inj htrace
      have hnext := ih _ (fun v => good v ∨ (event C rules call).SignsCertified C genesis v)
        (event_dataStep hc call).2 ?_
        (fun event hevent => hgenuine event (mem_cons_of_mem _ hevent))
        before e after hrest vote hvote
      · rcases hnext with (hpast | hsigns) | ⟨signing, hmem, hsigns⟩
        · exact .inl hpast
        · exact .inr ⟨_, mem_cons_self, hsigns⟩
        · exact .inr ⟨signing, mem_cons_of_mem _ hmem, hsigns⟩
      · intro d v hd hlast
        refine (event_vote_cases hc call hfirst (.inr ⟨d, hd, hlast⟩)).imp ?_ id
        rintro ⟨d', hd', hlast'⟩
        exact hgood d' v hd' hlast'

/-- What a vote commits is certified, for a new vote exactly when the genesis is genuine. -/
theorem perform_commitsCertified_iff (C : Crypto) (genesis : Nat → BlockInfo) :
    (∀ (rules : SafetyRules) (op : RulesOp) (vote : Vote), rules.Coherent →
      (rules.perform C op).1 = .vote vote →
        (∃ data, rules.safetyData? = some data ∧ data.lastVote = some vote) ∨
        ∃ data block state, op.Votes C rules data block vote ∧ rules.epochState = some state ∧
          (vote.ledgerInfo.CommitsCertified C genesis state block.quorumCert ↔
            op.GenesisGenuine genesis rules)) ∧
    (∀ (rules : SafetyRules) (calls : List (RulesOp × List IoOutcome)), rules.Coherent →
      (∀ data, rules.safetyData? = some data → data.lastVote = none) →
      (∀ event ∈ trace C rules calls, event.op.GenesisGenuine genesis event.pre) →
      ∀ before event after, trace C rules calls = before ++ event :: after →
        ∀ vote, event.output = .vote vote →
          ∃ signing ∈ before ++ [event], signing.SignsCertified C genesis vote) := by
  constructor
  · intro rules op vote hc hvote
    rcases (perform_effect hc op).1.vote_cases (.inl hvote) with hstored |
      ⟨data, block, -, hvotes⟩
    · exact .inl hstored
    · obtain ⟨state, hstate, hiff⟩ := votes_commitsCertified_iff hvotes
      exact .inr ⟨data, block, state, hvotes, hstate, hiff⟩
  · intro rules calls hc hnone hgenuine before event after htrace vote hvote
    have hgood : ∀ data vote, rules.safetyData? = some data → data.lastVote = some vote →
        False := fun data vote hdata hlast => by simp [hnone data hdata] at hlast
    exact (trace_votes_certified calls rules (fun _ => False) hc hgood hgenuine before event after
      htrace vote hvote).resolve_left id

def soleRules : SafetyRules := entering { epoch := 1, verifier := .sole } 1 7

def soleGenesisInfo : BlockInfo := QuorumCert.genesisBlockInfo soleGenesis 0

def soleVoteTwoChain (certified : BlockInfo) : RulesOp :=
  .constructAndSignVoteTwoChain 0 (soleProposal certified) none

theorem soleRules_coherent : soleRules.Coherent := by
  rintro _ hdata
  exact hdata

/-- A vote for a block over the genesis, and one for a block over the certificate of the first. -/
def soleVotes : List (RulesOp × List IoOutcome) :=
  let first := soleVoteTwoChain soleGenesisInfo
  match (soleRules.perform .concrete first).1 with
  | .vote vote =>
    [(first, []), (.constructAndSignVoteTwoChain 0 (vote.certificate.nilProposal 2) none, [])]
  | _ => [(first, [])]

theorem perform_commitsCertified_iff_soleVotes :
    ∃ vote, ((trace .concrete soleRules soleVotes).map (·.output)).getLast? = some (.vote vote) ∧
      vote.ledgerInfo.commitInfo.round = 1 ∧
      ∃ signing ∈ trace .concrete soleRules soleVotes,
        signing.SignsCertified .concrete (fun _ => soleGenesisInfo) vote := by
  refine ⟨_, rfl, rfl, ?_⟩
  refine (perform_commitsCertified_iff .concrete fun _ => soleGenesisInfo).2 soleRules
    soleVotes soleRules_coherent ?_ ?_ [_] _ [] rfl _ rfl
  · rintro _ hdata
    cases hdata
    rfl
  · intro _ hevent
    rcases mem_cons.mp hevent with rfl | hevent
    · exact fun _ _ _ _ => .inl rfl
    · obtain rfl := mem_singleton.mp hevent
      exact fun hround => absurd hround (by decide)

/-- Over an unsigned certificate, the vote commits a state and a version of the caller's choice. -/
theorem perform_commits_forged_genesis :
    ∃ vote, (soleRules.perform .concrete (soleVoteTwoChain
        { soleGenesisInfo with executedStateId := 42, version := 99 })).1 = .vote vote ∧
      vote.ledgerInfo.commitInfo.executedStateId = 42 ∧
      vote.ledgerInfo.commitInfo.version = 99 ∧
      ¬vote.ledgerInfo.CommitsCertified .concrete (fun _ => soleGenesisInfo)
        { epoch := 1, verifier := .sole }
        (soleProposal { soleGenesisInfo with
          executedStateId := 42, version := 99 }).voteProposal.block.quorumCert := by
  refine ⟨_, rfl, rfl, rfl, fun hcommits => ?_⟩
  rcases hcommits (by decide) with hgenesis | hcertifies
  · exact absurd hgenesis (by decide)
  · have hzero := (quorumSigned_empty_iff rfl).mp hcertifies.signed
    exact absurd hzero (by decide)

end SafetyRules

end Loki.Diem
