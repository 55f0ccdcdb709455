import Loki.Diem.SafetyRules.Rules

/-!
# What the methods of the safety rules can do

One lemma per method says every way in which a call can end: what it checked, what it wrote to
the store and what it returned, with any storage fault in between.  A call is `Quiet` when it
leaves the stored values and the epoch as they are; a vote or a timeout is the only other thing
that a signing method can do to the safety data.
-/

namespace Loki.Diem

open Loki.Foundation PersistentSafetyStorage SafetyData Call

namespace SafetyRules

def safetyData? (rules : SafetyRules) : Option SafetyData :=
  rules.persistentStorage.internalStore.safetyData

def Coherent (rules : SafetyRules) : Prop := rules.persistentStorage.Coherent

structure Quiet (rules t : SafetyRules) : Prop where
  storage : Unchanged rules.persistentStorage t.persistentStorage
  rest : t = { rules with persistentStorage := t.persistentStorage }

/-- The same rules after `data` was written. -/
structure Wrote (rules t : SafetyRules) (data : SafetyData) : Prop where
  contents_eq : t.persistentStorage.contents =
    { rules.persistentStorage.contents with safetyData := some data }
  coherent : t.Coherent
  rest : t = { rules with persistentStorage := t.persistentStorage }

variable {C : Crypto} {rules t u : SafetyRules} {data : SafetyData} {verifier : ValidatorVerifier}
  {block : Block} {voteData : VoteData} {li : LedgerInfo} {New : SafetyData → Vote → Prop}
  {Allowed : SafetyData → Prop}

theorem Quiet.refl (rules) : Quiet rules rules := ⟨Unchanged.refl _, rfl⟩

section

variable (h : Quiet rules t)

include h

theorem Quiet.trans (h' : Quiet t u) : Quiet rules u := by
  refine ⟨h.storage.trans h'.storage, ?_⟩
  rw [h'.rest, h.rest]

theorem Quiet.coherent (hc : rules.Coherent) : t.Coherent := h.storage.coherent hc

theorem Quiet.safetyData?_eq : t.safetyData? = rules.safetyData? :=
  safetyData_of_contents h.storage.contents_eq

theorem Quiet.epochState_eq : t.epochState = rules.epochState := by rw [h.rest]

theorem Quiet.validatorSigner_eq : t.validatorSigner = rules.validatorSigner := by rw [h.rest]

theorem Quiet.wrote (h' : Wrote t u data) : Wrote rules u data := by
  refine ⟨?_, h'.coherent, ?_⟩
  · rw [h'.contents_eq, h.storage.contents_eq]
  · rw [h'.rest, h.rest]

end

theorem Wrote.quiet (h : Wrote rules t data) (h' : Quiet t u) : Wrote rules u data := by
  refine ⟨h'.storage.contents_eq.trans h.contents_eq, h'.coherent h.coherent, ?_⟩
  rw [h'.rest, h.rest]

theorem Wrote.safetyData?_eq (h : Wrote rules t data) : t.safetyData? = some data := by
  have hdata := congrArg SecureStorage.safetyData h.contents_eq
  exact hdata

theorem Wrote.epochState_eq (h : Wrote rules t data) : t.epochState = rules.epochState := by
  rw [h.rest]

section

variable {α β : Type} {x : Method α} {f : α → Method β} {Q : α → Prop}
  {post : Except (Fault Error) β → SafetyRules → Prop} {y : Access α}

/-- The rules are left as they are, and `Q` holds of what is returned. -/
def Reads (rules : SafetyRules) (Q : α → Prop) (r : Except (Fault Error) α) (t : SafetyRules) :
    Prop :=
  Quiet rules t ∧ ∀ a, r = .ok a → Q a

theorem Reads.of_error {e} (h : Quiet rules t) : Reads rules Q (.error e) t := ⟨h, nofun⟩

-- Every effect below has a lemma `of_error`: a call may fail and leave the rules as they are.
theorem bind_quiet (hx : x.Ensures rules (Reads rules Q))
    (hok : ∀ a t, Quiet rules t → Q a → (f a).Ensures t post)
    (herr : ∀ e t, Quiet rules t → post (.error e) t := by exact fun _ _ => .of_error) :
    (x >>= f).Ensures rules post :=
  hx.bind (fun a t h => hok a t h.1 (h.2 a rfl)) fun e t h => herr e t h.1

theorem Quiet.bind (hq : Quiet rules t) (hx : x.Ensures t (Reads t Q))
    (hok : ∀ a u, Quiet rules u → Q a → (f a).Ensures u post)
    (herr : ∀ e u, Quiet rules u → post (.error e) u := by exact fun _ _ => .of_error) :
    (x >>= f).Ensures t post :=
  bind_quiet hx (fun a u h => hok a u (hq.trans h)) fun e u h => herr e u (hq.trans h)

theorem bind_check {y} (hok : ∀ a, y = .ok a → (f a).Ensures rules post)
    (herr : ∀ e, post (.error e) rules := by exact fun _ => .of_error (by assumption)) :
    (check y >>= f : Method β).Ensures rules post :=
  ensures_check_bind hok fun e _ => herr (.error e)

theorem onStorage_ensures {spost} (h : y.Ensures rules.persistentStorage spost) :
    (onStorage y).Ensures rules fun r t =>
      spost r t.persistentStorage ∧
        t = { rules with persistentStorage := t.persistentStorage } :=
  ⟨h, rfl⟩

theorem onStorage_quiet (h : y.Ensures rules.persistentStorage fun r s =>
      Unchanged rules.persistentStorage s ∧ ∀ a, r = .ok a → Q a) :
    (onStorage y).Ensures rules (Reads rules Q) := by
  refine (onStorage_ensures h).mono ?_
  rintro r t ⟨⟨hsame, hr⟩, hrest⟩
  exact ⟨⟨hsame, hrest⟩, hr⟩

end

/-! ## Reads and checks -/

theorem getSigner_ensures : getSigner.Ensures rules
    (Reads rules fun signer => rules.validatorSigner = some signer) := by
  refine ensures_gets_bind ⟨Quiet.refl _, fun _ h => ?_⟩
  exact okOr_eq_ok.mp (mapErr_eq_ok.mp h)

theorem getEpochState_ensures : getEpochState.Ensures rules
    (Reads rules fun state => rules.epochState = some state) := by
  refine ensures_gets_bind ⟨Quiet.refl _, fun _ h => ?_⟩
  exact okOr_eq_ok.mp (mapErr_eq_ok.mp h)

theorem sign_ensures (message) :
    (sign C message).Ensures rules (Reads rules fun _ => True) := by
  refine bind_quiet getSigner_ensures ?_
  intro signer t hquiet _
  have hsign : (signer.sign C message).Ensures t.persistentStorage fun r s =>
      Unchanged t.persistentStorage s ∧
        ∀ signature, r = .ok signature → True := by
    cases signer with
    | signer => exact ⟨Unchanged.refl _, fun _ _ => trivial⟩
    | handle _ version =>
      exact ⟨PersistentSafetyStorage.sign_ensures version message, fun _ _ => trivial⟩
  exact (onStorage_quiet hsign).mono fun r u h => ⟨hquiet.trans h.1, fun _ _ => trivial⟩

theorem safetyData_ensures (hq : Quiet rules t) (hc : rules.Coherent) :
    (onStorage safetyData).Ensures t (Reads t fun data => rules.safetyData? = some data) := by
  rw [← hq.safetyData?_eq]
  exact onStorage_quiet (PersistentSafetyStorage.safetyData_ensures (.inr (hq.coherent hc)))

theorem setSafetyData_ensures (data) :
    (onStorage (setSafetyData data)).Ensures rules fun r t =>
      Wrote rules t data ∨ (Quiet rules t ∧ ∀ a, r ≠ .ok a) := by
  refine (onStorage_ensures (PersistentSafetyStorage.setSafetyData_ensures data)).mono ?_
  rintro r t ⟨⟨henable, hcoherent, hwrote | ⟨hsame, hr⟩⟩, hrest⟩
  · exact .inl ⟨hwrote, hcoherent, hrest⟩
  · exact .inr ⟨⟨⟨hsame, henable, fun _ => hcoherent⟩, hrest⟩, hr⟩

theorem verifyQc_ensures (qc : QuorumCert) : (verifyQc C qc).Ensures rules (Reads rules fun _ =>
    ∃ state, rules.epochState = some state ∧ qc.Verified C state.verifier) := by
  refine bind_quiet getEpochState_ensures ?_
  intro state t hquiet hstate
  refine ⟨hquiet, fun a ha => ⟨state, hstate, ?_⟩⟩
  exact QuorumCert.verify_sound (mapErr_eq_ok.mp (mapErr_eq_ok.mp ha))

theorem verifyTc?_ensures (tc : Option TwoChainTimeoutCertificate) :
    (verifyTc? C tc).Ensures rules (Reads rules fun _ => ∀ cert ∈ tc,
      ∃ state, rules.epochState = some state ∧ cert.Verified C state.verifier) := by
  cases tc with
  | none => exact ⟨Quiet.refl _, fun _ _ => nofun⟩
  | some =>
    refine bind_quiet getEpochState_ensures ?_
    intro state t hquiet hstate
    refine ⟨hquiet, fun a ha _ hcert => ⟨state, hstate, ?_⟩⟩
    cases hcert
    exact TwoChainTimeoutCertificate.verify_sound (mapErr_eq_ok.mp (mapErr_eq_ok.mp ha))

/-- What `verify_proposal` establishes about the block and the vote data. -/
structure ProposalVerified (C : Crypto) (verifier : ValidatorVerifier) (data : SafetyData)
    (block : Block) (voteData : VoteData) : Prop where
  epoch_eq : block.epoch = data.epoch
  qc : block.quorumCert.Verified C verifier
  round_lt : block.quorumCert.certifiedBlock.round < block.round
  parent_epoch : block.quorumCert.certifiedBlock.epoch = block.epoch
  parent_eq : voteData.parent = block.quorumCert.certifiedBlock
  proposed_eq : ∃ root version next,
    voteData.proposed = block.genBlockInfo C root version next

section

variable (h : ProposalVerified C verifier data block voteData)

include h

theorem ProposalVerified.proposed_epoch : voteData.proposed.epoch = block.epoch := by
  obtain ⟨_, _, _, heq⟩ := h.proposed_eq
  rw [heq]
  rfl

theorem ProposalVerified.proposed_round : voteData.proposed.round = block.round := by
  obtain ⟨_, _, _, heq⟩ := h.proposed_eq
  rw [heq]
  rfl

theorem ProposalVerified.proposed_id : voteData.proposed.id = block.id C := by
  obtain ⟨_, _, _, heq⟩ := h.proposed_eq
  rw [heq]
  rfl

end

theorem verifyExecutionSignature_ensures (proposal) :
    (verifyExecutionSignature C proposal).Ensures rules fun _ t => t = rules := by
  refine ensures_gets_bind ?_
  split
  · refine ensures_check_bind (fun _ _ => ?_) fun e _ => rfl
    rfl
  · rfl

private theorem voteData_ensures (proposal) (decoupled : Bool) :
    (if decoupled then pure (proposal.voteDataOrderingOnly C) else extensionCheck C proposal :
      Method VoteData).Ensures rules fun r t => t = rules ∧ ∀ voteData, r = .ok voteData →
        voteData.parent = proposal.block.quorumCert.certifiedBlock ∧
          ∃ root version next,
            voteData.proposed = proposal.block.genBlockInfo C root version next := by
  cases decoupled with
  | true =>
    refine ⟨rfl, fun voteData hdata => ?_⟩
    cases hdata
    exact ⟨rfl, _, _, _, rfl⟩
  | false =>
    have htree : (lift (mapErr (Fault.map .invalidAccumulatorExtension)
        (proposal.accumulatorExtensionProof.verify C
          proposal.block.quorumCert.certifiedBlock.executedStateId)) :
        Method InMemoryAccumulator).Ensures rules fun _ t => t = rules := rfl
    refine htree.bind ?_ fun e t h => ⟨h, nofun⟩
    rintro _ t rfl
    refine ⟨rfl, fun _ hdata => ?_⟩
    cases hdata
    exact ⟨rfl, _, _, _, rfl⟩

theorem verifyProposal_ensures (hc : rules.Coherent) (now : Nat)
    (proposal) :
    (verifyProposal C now proposal).Ensures rules (Reads rules fun voteData =>
      ∃ data state, rules.safetyData? = some data ∧ rules.epochState = some state ∧
        ProposalVerified C state.verifier data proposal.voteProposal.block voteData) := by
  refine (verifyExecutionSignature_ensures proposal).bind ?_ ?_
  swap
  · rintro e t rfl
    exact .of_error (.refl _)
  rintro _ _ rfl
  refine bind_quiet (safetyData_ensures (.refl _) hc) ?_
  intro data _ hq₁ hdata
  refine bind_check ?_
  intro _ hepoch
  refine hq₁.bind (verifyQc_ensures _) ?_
  rintro _ _ hq₂ ⟨state, hstate, hqc⟩
  refine hq₂.bind getEpochState_ensures ?_
  intro _ _ hq _
  refine bind_check ?_
  intro _ _
  refine bind_check ?_
  intro _ hwell
  refine ensures_gets_bind ?_
  refine (voteData_ensures _ _).mono ?_
  rintro r t ⟨rfl, hr⟩
  refine ⟨hq, fun voteData hvote => ⟨data, state, hdata, ?_, ?_⟩⟩
  · rw [← hstate, hq₁.epochState_eq]
  · obtain ⟨hparent, hproposed⟩ := hr voteData hvote
    obtain ⟨hlt, hpe⟩ := Block.verifyWellFormed_spec (mapErr_eq_ok.mp hwell)
    exact ⟨ensure_eq_ok.mp hepoch, hqc, hlt, hpe, hparent, hproposed⟩

/-! ## Votes -/

/-- A vote as `signAndPersistVote` builds it. -/
structure SignedVote (rules : SafetyRules) (voteData : VoteData)
    (ledgerInfo : Except Error LedgerInfo) (vote : Vote) : Prop where
  voteData_eq : vote.voteData = voteData
  ledgerInfo_eq : ledgerInfo = .ok vote.ledgerInfo
  author_eq : ∃ signer, rules.validatorSigner = some signer ∧ vote.author = signer.author

def afterVote (data : SafetyData) (block : Block) (vote : Vote) : SafetyData :=
  { data.observeQc block.quorumCert with
    lastVotedRound := block.round
    lastVote := some vote }

theorem nextRound_eq_ok {round next} (h : nextRound round = .ok next) : next = round + 1 := by
  simp only [nextRound, bind_eq_ok, pure_eq_ok] at h
  obtain ⟨_, -, rfl⟩ := h
  rfl

theorem constructLedgerInfo_spec {hash} (h : constructLedgerInfo block hash = .ok li) :
    li.consensusDataHash = hash ∧
      (li.commitInfo = .empty ∨
        (li.commitInfo = block.quorumCert.parentBlock ∧
          block.quorumCert.parentBlock.round + 1 = block.quorumCert.certifiedBlock.round ∧
          block.quorumCert.certifiedBlock.round + 1 = block.round)) := by
  obtain ⟨_, hnext0, h⟩ := bind_eq_ok.mp h
  split at h
  · next hparent =>
      simp only [bind_eq_ok, pure_eq_ok] at h
      obtain ⟨_, hnext1, commit, hround, rfl⟩ := h
      refine ⟨rfl, ?_⟩
      cases commit with
      | false => exact .inl rfl
      | true =>
        rw [nextRound_eq_ok hnext0] at hparent
        rw [nextRound_eq_ok hnext1] at hround
        exact .inr ⟨rfl, hparent, of_decide_eq_true hround⟩
  · simp only [bind_eq_ok, pure_eq_ok] at h
    obtain ⟨_, rfl, rfl⟩ := h
    exact ⟨rfl, .inl rfl⟩

theorem constructLedgerInfo2chain_spec {hash} (h : constructLedgerInfo2chain block hash = .ok li) :
    li.consensusDataHash = hash ∧
      li.commitInfo = if block.quorumCert.certifiedBlock.round + 1 = block.round
        then block.quorumCert.certifiedBlock else .empty := by
  simp only [constructLedgerInfo2chain, bind_eq_ok, pure_eq_ok] at h
  obtain ⟨_, hnext, rfl⟩ := h
  rw [nextRound_eq_ok hnext]
  exact ⟨rfl, rfl⟩

section

variable (C : Crypto) (rules : SafetyRules) (data : SafetyData) (block : Block)

structure NewVote
    (ledgerInfo : Except Error LedgerInfo) (vote : Vote) : Prop where
  verified : ∃ state, rules.epochState = some state ∧
    ProposalVerified C state.verifier data block vote.voteData
  not_voted : data.votedIn block.round = none
  round_gt : data.lastVotedRound < block.round
  ledgerInfo_eq : ledgerInfo = .ok vote.ledgerInfo
  author_eq : ∃ signer, rules.validatorSigner = some signer ∧ vote.author = signer.author

structure NewVote3
    (vote : Vote) : Prop
    extends NewVote C rules data block (constructLedgerInfo block (vote.voteData.hash C)) vote
    where
  preferred_le : data.preferredRound ≤ block.quorumCert.certifiedBlock.round

end

structure NewVote2 (C : Crypto) (tc : Option TwoChainTimeoutCertificate) (rules : SafetyRules)
    (data : SafetyData) (block : Block) (vote : Vote) : Prop
    extends NewVote C rules data block (constructLedgerInfo2chain block (vote.voteData.hash C))
      vote where
  safe : safeToVote block tc = .ok ()
  tc_verified : ∀ cert ∈ tc,
    ∃ state, rules.epochState = some state ∧ cert.Verified C state.verifier

structure SentBack (rules : SafetyRules) (block : Block) (vote : Vote) : Prop where
  stored : ∃ data, rules.safetyData? = some data ∧ data.votedIn block.round = some vote ∧
    block.epoch = data.epoch
  active : ∃ state, rules.epochState = some state

def VoteEffect (New : SafetyData → Vote → Prop) (rules : SafetyRules) (block : Block)
    (r : Except (Fault Error) Vote) (t : SafetyRules) : Prop :=
  (Quiet rules t ∧ ∀ vote, r = .ok vote → SentBack rules block vote) ∨
    ∃ data vote, rules.safetyData? = some data ∧ New data vote ∧
      Wrote rules t (afterVote data block vote) ∧ ∀ vote', r = .ok vote' → vote' = vote

theorem VoteEffect.of_error {e} (h : Quiet rules t) : VoteEffect New rules block (.error e) t :=
  .inl ⟨h, nofun⟩

private theorem signAndPersistVote_effect {ledgerInfo}
    {data'} (hquiet : Quiet rules t) (hdata : rules.safetyData? = some data)
    (hafter : ∀ vote, { data' with lastVote := some vote } = afterVote data block vote)
    (hnew : ∀ vote, SignedVote t voteData ledgerInfo vote → New data vote) :
    (signAndPersistVote C voteData ledgerInfo data').Ensures t
      (VoteEffect New rules block) := by
  refine hquiet.bind getSigner_ensures ?_
  intro signer _ hq₁ hsigner
  refine bind_check ?_
  intro li hli
  refine hq₁.bind (sign_ensures _) ?_
  intro signature _ hq _
  have hsigned : SignedVote t voteData ledgerInfo
      (Vote.newWithSignature voteData signer.author li signature) :=
    ⟨rfl, hli, signer, hsigner, rfl⟩
  refine (setSafetyData_ensures _).bind ?_ ?_
  · rintro _ _ (hwrote | ⟨-, hr⟩)
    · refine .inr ⟨data, _, hdata, hnew _ hsigned, hafter _ ▸ hq.wrote hwrote, fun _ hvote => ?_⟩
      cases hvote
      rfl
    · exact absurd rfl (hr _)
  · rintro e _ (hwrote | ⟨hquiet, -⟩)
    · exact .inr ⟨data, _, hdata, hnew _ hsigned, hafter _ ▸ hq.wrote hwrote, nofun⟩
    · exact .of_error (hq.trans hquiet)

theorem constructAndSignVote_effect (hc : rules.Coherent) (now : Nat)
    (proposal) :
    (constructAndSignVote C now proposal).Ensures rules
      (VoteEffect (fun data vote =>
        NewVote3 C rules data proposal.voteProposal.block vote) rules
        proposal.voteProposal.block) := by
  refine bind_quiet getSigner_ensures ?_
  intro _ _ hq₁ _
  refine hq₁.bind (verifyProposal_ensures (hq₁.coherent hc) now proposal) ?_
  rintro _ _ hq₂ ⟨data, state, hdata, hstate, hverified⟩
  rw [hq₁.safetyData?_eq] at hdata
  rw [hq₁.epochState_eq] at hstate
  refine hq₂.bind (safetyData_ensures hq₂ hc) ?_
  intro _ _ hq hdata'
  obtain rfl := Option.some.inj (hdata.symm.trans hdata')
  dsimp only
  split
  · next vote hvoted =>
      refine .inl ⟨hq, fun _ hvote => ?_⟩
      cases hvote
      exact ⟨⟨data, hdata, hvoted, hverified.epoch_eq⟩, state, hstate⟩
  · next hnot =>
      refine bind_check ?_
      intro _ hobserved
      refine bind_check ?_
      intro _ hraised
      simp only [verifyAndUpdatePreferredRound, bind_eq_ok, ensure_eq_ok, pure_eq_ok] at hobserved
      obtain ⟨_, hpreferred, rfl⟩ := hobserved
      simp only [verifyAndUpdateLastVoteRound, bind_eq_ok, ensure_eq_ok, pure_eq_ok] at hraised
      obtain ⟨_, hround, rfl⟩ := hraised
      refine signAndPersistVote_effect hq hdata (fun _ => rfl) ?_
      rintro _ ⟨rfl, hli, signer, hsigner, hauthor⟩
      exact ⟨⟨⟨state, hstate, hverified⟩, hnot, hround, hli, signer,
        hq.validatorSigner_eq ▸ hsigner, hauthor⟩, hpreferred⟩

theorem constructAndSignVoteTwoChain_effect (hc : rules.Coherent) (now : Nat)
    (proposal) (tc : Option TwoChainTimeoutCertificate) :
    (constructAndSignVoteTwoChain C now proposal tc).Ensures rules
      (VoteEffect (fun data vote =>
        NewVote2 C tc rules data proposal.voteProposal.block vote) rules
        proposal.voteProposal.block) := by
  refine bind_quiet getSigner_ensures ?_
  intro _ _ hq₁ _
  refine hq₁.bind (verifyProposal_ensures (hq₁.coherent hc) now proposal) ?_
  rintro _ _ hq₂ ⟨data, state, hdata, hstate, hverified⟩
  rw [hq₁.safetyData?_eq] at hdata
  rw [hq₁.epochState_eq] at hstate
  refine hq₂.bind (verifyTc?_ensures tc) ?_
  intro _ _ hq₃ htc
  rw [hq₂.epochState_eq] at htc
  refine hq₃.bind (safetyData_ensures hq₃ hc) ?_
  intro _ _ hq hdata'
  obtain rfl := Option.some.inj (hdata.symm.trans hdata')
  dsimp only
  split
  · next vote hvoted =>
      refine .inl ⟨hq, fun _ hvote => ?_⟩
      cases hvote
      exact ⟨⟨data, hdata, hvoted, hverified.epoch_eq⟩, state, hstate⟩
  · next hnot =>
      refine bind_check ?_
      intro _ hraised
      refine bind_check ?_
      intro _ hsafe
      simp only [verifyAndUpdateLastVoteRound, bind_eq_ok, ensure_eq_ok, pure_eq_ok] at hraised
      obtain ⟨_, hround, rfl⟩ := hraised
      refine signAndPersistVote_effect hq hdata (fun _ => rfl) ?_
      rintro _ ⟨rfl, hli, signer, hsigner, hauthor⟩
      exact ⟨⟨⟨state, hstate, hverified⟩, hnot, hround, hli, signer,
        hq.validatorSigner_eq ▸ hsigner, hauthor⟩, hsafe, htc⟩

/-! ## Timeouts, proposals and commit votes -/

/-- All that a timeout method can do: nothing, with a signature only for the last voted round, or
raise the last voted round. -/
def TimeoutEffect (Allowed : SafetyData → Prop) (rules : SafetyRules) (round : Nat)
    (r : Except (Fault Error) Signature) (t : SafetyRules) : Prop :=
  (Quiet rules t ∧ ∀ signature, r = .ok signature →
      ∃ data, rules.safetyData? = some data ∧ Allowed data ∧ data.lastVotedRound = round) ∨
    ∃ data, rules.safetyData? = some data ∧ Allowed data ∧ data.lastVotedRound < round ∧
      Wrote rules t { data with lastVotedRound := round }

theorem TimeoutEffect.of_error {round} {e : Fault Error} (h : Quiet rules t) :
    TimeoutEffect Allowed rules round (.error e) t :=
  .inl ⟨h, nofun⟩

private theorem raiseRoundAndSign_effect (hquiet : Quiet rules t)
    (hdata : rules.safetyData? = some data) (hallowed : Allowed data) (round : Nat)
    (message) :
    (raiseRoundAndSign C data round message).Ensures t (TimeoutEffect Allowed rules round) := by
  refine bind_check ?_
  intro _ hle
  rw [ensure_eq_ok] at hle
  split
  · next hlt =>
      refine bind_check ?_
      intro _ hraised
      simp only [verifyAndUpdateLastVoteRound, bind_eq_ok, ensure_eq_ok, pure_eq_ok] at hraised
      obtain ⟨_, -, rfl⟩ := hraised
      refine (setSafetyData_ensures _).bind ?_ ?_
      · rintro _ u (hwrote | ⟨-, hr⟩)
        · refine (sign_ensures message).mono fun r v h => .inr ?_
          exact ⟨data, hdata, hallowed, hlt, hquiet.wrote (hwrote.quiet h.1)⟩
        · exact absurd rfl (hr _)
      · rintro e u (hwrote | ⟨hq, -⟩)
        · exact .inr ⟨data, hdata, hallowed, hlt, hquiet.wrote hwrote⟩
        · exact .of_error (hquiet.trans hq)
  · next hge =>
      refine (sign_ensures message).mono fun r u h => .inl ⟨hquiet.trans h.1, fun _ _ => ?_⟩
      exact ⟨data, hdata, hallowed, le_antisymm hle (not_lt.mp hge)⟩

theorem signTimeout_effect (hc : rules.Coherent) (timeout) :
    (signTimeout C timeout).Ensures rules
      (TimeoutEffect (fun data =>
        timeout.epoch = data.epoch ∧ data.preferredRound < timeout.round) rules
        timeout.round) := by
  refine bind_quiet getSigner_ensures ?_
  intro _ _ hq₁ _
  refine hq₁.bind (safetyData_ensures hq₁ hc) ?_
  intro _ _ hq hdata
  refine bind_check ?_
  intro _ hepoch
  refine bind_check ?_
  intro _ hpreferred
  exact raiseRoundAndSign_effect hq hdata ⟨ensure_eq_ok.mp hepoch, ensure_eq_ok.mp hpreferred⟩ _ _

/-- What `sign_timeout_with_qc` checks before it signs. -/
structure TimeoutAllowed (timeout : TwoChainTimeout) (tc : Option TwoChainTimeoutCertificate)
    (data : SafetyData) : Prop where
  epoch_eq : timeout.epoch = data.epoch
  safe : safeToTimeout timeout tc data = .ok ()

theorem signTimeoutWithQc_effect (hc : rules.Coherent) (timeout)
    (tc : Option TwoChainTimeoutCertificate) :
    (signTimeoutWithQc C timeout tc).Ensures rules
      (TimeoutEffect (TimeoutAllowed timeout tc) rules timeout.round) := by
  refine bind_quiet getSigner_ensures ?_
  intro _ _ hq₁ _
  refine hq₁.bind (safetyData_ensures hq₁ hc) ?_
  intro _ _ hq₂ hdata
  refine bind_check ?_
  intro _ hepoch
  refine hq₂.bind (verifyQc_ensures _) ?_
  intro _ _ hq₃ _
  refine hq₃.bind (verifyTc?_ensures tc) ?_
  intro _ _ hq _
  refine bind_check ?_
  intro _ hsafe
  exact raiseRoundAndSign_effect hq hdata ⟨ensure_eq_ok.mp hepoch, hsafe⟩ _ _

theorem verifyAuthor_ensures (author : Option Author) :
    (verifyAuthor author).Ensures rules (Reads rules fun _ => True) := by
  refine bind_quiet getSigner_ensures ?_
  intro _ t hq _
  exact bind_check fun _ _ => ⟨hq, fun _ _ => trivial⟩

theorem signProposal_effect (hc : rules.Coherent) (data) :
    (signProposal C data).Ensures rules fun _ t => Quiet rules t := by
  refine bind_quiet getSigner_ensures ?_ fun e t h => h
  intro _ _ hq₁ _
  refine hq₁.bind (verifyAuthor_ensures _) ?_ fun e t h => h
  intro _ _ hq₂ _
  refine hq₂.bind (safetyData_ensures hq₂ hc) ?_ fun e t h => h
  intro _ _ hq _
  refine bind_check (fun _ _ => ?_) fun e => hq
  exact (sign_ensures _).mono fun r t h => hq.trans h.1

theorem signCommitVote_effect (li : LedgerInfoWithSignatures) (newLi : LedgerInfo) :
    (signCommitVote C li newLi).Ensures rules fun _ t => Quiet rules t := by
  refine bind_quiet getSigner_ensures ?_ fun e t h => h
  intro _ _ hq₁ _
  refine bind_check (fun _ _ => ?_) fun e => hq₁
  refine bind_check (fun _ _ => ?_) fun e => hq₁
  refine hq₁.bind getEpochState_ensures ?_ fun e t h => h
  intro _ _ hq _
  refine bind_check (fun _ _ => ?_) fun e => hq
  exact (sign_ensures _).mono fun r t h => hq.trans h.1

/-! ## Initialisation -/

/-- The proof is accepted by the stored waypoint and ends in `state`. -/
structure ProofAccepted (C : Crypto) (rules : SafetyRules) (proof : EpochChangeProof)
    (last : LedgerInfoWithSignatures) (state : EpochState) (data : SafetyData) : Prop where
  verified : ∃ waypoint, rules.persistentStorage.internalStore.waypoint = some waypoint ∧
    proof.verify C (.waypoint waypoint) = .ok last
  announced : last.ledgerInfo.nextEpochState = some state
  stored : rules.safetyData? = some data

inductive Entered (C : Crypto) (li : LedgerInfo) (state : EpochState) (newer : Prop)
    (c : SecureStorage) : SecureStorage → Prop
  | nothing : Entered C li state newer c c
  | waypoint : Entered C li state newer c { c with waypoint := some (Waypoint.newAny C li) }
  | both (h : newer) : Entered C li state newer c {
      c with
      waypoint := some (Waypoint.newAny C li)
      safetyData := some (SafetyData.new state.epoch 0 0 0 none) }

theorem Entered.safetyData_eq {state newer} {c c' : SecureStorage}
    (h : Entered C li state newer c c') : c'.safetyData = c.safetyData ∨
      newer ∧ c'.safetyData = some (SafetyData.new state.epoch 0 0 0 none) := by
  cases h with
  | nothing | waypoint => exact .inl rfl
  | both h => exact .inr ⟨h, rfl⟩

theorem Entered.imp {state} {p q : Prop} {c c' : SecureStorage} (h : Entered C li state p c c')
    (himp : p → q) : Entered C li state q c c' := by
  cases h with
  | nothing => exact .nothing
  | waypoint => exact .waypoint
  | both h => exact .both (himp h)

/-- All that the first part of `initialize` can do. -/
inductive InstallEffect (C : Crypto) (proof : EpochChangeProof) (rules : SafetyRules) :
    Except (Fault Error) EpochState → SafetyRules → Prop
  | refused {e : Fault Error} {t : SafetyRules} (quiet : Quiet rules t) :
      InstallEffect C proof rules (.error e) t
  | interrupted {e : Fault Error} {t : SafetyRules} {last : LedgerInfoWithSignatures}
      {state : EpochState} {data : SafetyData}
      (accepted : ProofAccepted C rules proof last state data) (newer : data.epoch < state.epoch)
      (entered : Entered C last.ledgerInfo state (data.epoch < state.epoch)
        rules.persistentStorage.contents t.persistentStorage.contents)
      (coherent : t.Coherent) (epochState : t.epochState = rules.epochState) :
      InstallEffect C proof rules (.error e) t
  | installed {t : SafetyRules} {last : LedgerInfoWithSignatures} {state : EpochState}
      {data : SafetyData} (accepted : ProofAccepted C rules proof last state data)
      (entered : Entered C last.ledgerInfo state (data.epoch < state.epoch)
        rules.persistentStorage.contents t.persistentStorage.contents)
      (epoch : ∃ d, t.safetyData? = some d ∧ d.epoch = max data.epoch state.epoch)
      (coherent : t.Coherent) (epochState : t.epochState = some state) :
      InstallEffect C proof rules (.ok state) t

theorem setWaypoint_ensures (w : Waypoint) :
    (onStorage (setWaypoint w)).Ensures rules fun r t =>
      (rules.Coherent → t.Coherent) ∧
        t = { rules with persistentStorage := t.persistentStorage } ∧
        (t.persistentStorage.contents =
            { rules.persistentStorage.contents with waypoint := some w } ∨
          (t.persistentStorage.contents = rules.persistentStorage.contents ∧
            ∀ u, r ≠ .ok u)) := by
  refine (onStorage_ensures (PersistentSafetyStorage.setWaypoint_ensures w)).mono ?_
  rintro r t ⟨⟨-, hcoherent, hcontents⟩, hrest⟩
  exact ⟨hcoherent, hrest, hcontents⟩

theorem enterEpoch_ensures (hc : rules.Coherent) (li : LedgerInfo) (state) :
    (enterEpoch C li state).Ensures rules fun r t =>
      t.Coherent ∧ t.epochState = rules.epochState ∧
        Entered C li state True rules.persistentStorage.contents t.persistentStorage.contents ∧
        ∀ u, r = .ok u → t.safetyData? = some (SafetyData.new state.epoch 0 0 0 none) := by
  refine bind_check ?_ fun e => ⟨hc, rfl, .nothing, nofun⟩
  intro w hw
  simp only [Waypoint.newEpochBoundary, mapErr_eq_ok, bind_eq_ok, pure_eq_ok] at hw
  obtain ⟨_, -, rfl⟩ := hw
  refine (setWaypoint_ensures _).bind ?_ ?_
  · rintro _ t₁ ⟨hc₁, hrest₁, hcontents₁ | ⟨-, hr⟩⟩
    swap
    · exact absurd rfl (hr _)
    have hstate₁ : t₁.epochState = rules.epochState := by rw [hrest₁]
    refine (setSafetyData_ensures _).mono ?_
    rintro r _ (hwrote | ⟨hquiet, hr⟩)
    · have hboth := hwrote.contents_eq
      rw [hcontents₁] at hboth
      exact ⟨hwrote.coherent, hwrote.epochState_eq.trans hstate₁, hboth ▸ .both trivial,
        fun _ _ => hwrote.safetyData?_eq⟩
    · have hsame := hquiet.storage.contents_eq.trans hcontents₁
      exact ⟨hquiet.coherent (hc₁ hc), hquiet.epochState_eq.trans hstate₁, hsame ▸ .waypoint,
        fun u hu => absurd hu (hr u)⟩
  · rintro e _ ⟨hc₁, hrest₁, hcontents₁⟩
    refine ⟨hc₁ hc, by rw [hrest₁], ?_, nofun⟩
    rcases hcontents₁ with hw | ⟨hsame, -⟩
    · exact hw ▸ .waypoint
    · exact hsame ▸ .nothing

theorem installEpochState_effect (hc : rules.Coherent) (proof) :
    (installEpochState C proof).Ensures rules (InstallEffect C proof rules) := by
  refine bind_quiet (onStorage_quiet waypoint_ensures) ?_ fun e t => .refused
  intro w _ hq₁ hw
  refine bind_check ?_ fun e => .refused hq₁
  intro last hlast
  refine bind_check ?_ fun e => .refused hq₁
  intro state hstate
  refine hq₁.bind (safetyData_ensures hq₁ hc) ?_ fun e t => .refused
  intro data t₂ hq hdata
  have haccepted : ProofAccepted C rules proof last state data :=
    ⟨⟨w, hw, mapErr_eq_ok.mp hlast⟩, okOr_eq_ok.mp hstate, hdata⟩
  have hcontents : t₂.persistentStorage.contents = rules.persistentStorage.contents :=
    hq.storage.contents_eq
  split
  · next hnewer =>
      refine (enterEpoch_ensures (hq.coherent hc) last.ledgerInfo state).bind ?_ ?_
      · rintro _ t₃ ⟨hc₃, -, hentered, hwritten⟩
        change InstallEffect C proof rules (.ok state) { t₃ with epochState := some state }
        refine .installed haccepted ((hcontents ▸ hentered).imp fun _ => hnewer) ?_ hc₃ rfl
        exact ⟨_, hwritten _ rfl, (max_eq_right hnewer.le).symm⟩
      · rintro e _ ⟨hc₃, hstate₃, hentered, -⟩
        exact .interrupted haccepted hnewer ((hcontents ▸ hentered).imp fun _ => hnewer) hc₃
          (hstate₃.trans hq.epochState_eq)
  · next holder =>
      change InstallEffect C proof rules (.ok state) { t₂ with epochState := some state }
      refine .installed haccepted (hcontents ▸ .nothing) ?_ (hq.coherent hc) rfl
      exact ⟨data, hq.safetyData?_eq.trans hdata, (max_eq_left (not_lt.mp holder)).symm⟩

structure Reconciled (rules t : SafetyRules) : Prop where
  storage : Unchanged rules.persistentStorage t.persistentStorage
  rest : t = { rules with
    persistentStorage := t.persistentStorage
    validatorSigner := t.validatorSigner }

theorem Quiet.reconciled (h : Quiet rules t) : Reconciled rules t := by
  refine ⟨h.storage, ?_⟩
  rw [h.rest]

theorem Reconciled.setSigner (h : Reconciled rules t)
    (signer : Option ConfigurableValidatorSigner) :
    Reconciled rules { t with validatorSigner := signer } := by
  refine ⟨h.storage, ?_⟩
  rw [h.rest]

theorem Reconciled.trans (h : Reconciled rules t) (h' : Reconciled t u) : Reconciled rules u := by
  refine ⟨h.storage.trans h'.storage, ?_⟩
  rw [h'.rest, h.rest]

theorem attempt_ensures {α} {x : Method α} {post} (h : x.Ensures rules post) :
    x.attempt.Ensures rules fun r t => ∃ r', r = .ok r' ∧ post r' t :=
  ⟨_, rfl, h⟩

theorem reconcileKey_ensures (author) (expectedKey : Option PublicKey) :
    (reconcileKey C author expectedKey).Ensures rules fun _ t => Reconciled rules t := by
  have hrefl : Reconciled rules rules := (Quiet.refl rules).reconciled
  cases expectedKey with
  | none => exact hrefl
  | some key =>
    refine ensures_gets_bind ?_
    split
    · exact hrefl
    · refine ensures_gets_bind ?_
      split
      · have hexport : (onStorage (consensusKeyForVersion C key)).Ensures
            rules fun _ t => Quiet rules t :=
          (onStorage_ensures
            (consensusKeyForVersion_ensures key)).mono
            fun _ _ h => ⟨h.1, h.2⟩
        refine (attempt_ensures hexport).bind ?_ fun e t ⟨_, _, h⟩ => h.reconciled
        rintro r t ⟨_, -, hq⟩
        split
        · exact hq.reconciled.setSigner _
        · exact hq.reconciled
        · exact hq.reconciled
      · have hset : (Call.modify fun rules =>
            { rules with validatorSigner := some (.handle author key) } :
            Method Unit).Ensures rules fun _ t => Reconciled rules t :=
          hrefl.setSigner _
        refine hset.bind ?_ fun e t h => h
        intro _ _ h₁
        refine (attempt_ensures (sign_ensures _)).bind ?_ ?_
        · rintro r t₂ ⟨_, -, hq, -⟩
          split
          · exact h₁.trans hq.reconciled
          · exact h₁.trans hq.reconciled
          · exact h₁.trans hq.reconciled
        · rintro e _ ⟨_, -, hq, -⟩
          exact h₁.trans hq.reconciled

theorem initializeSigner_ensures (state) :
    (initializeSigner C state).Ensures rules fun _ t => Reconciled rules t := by
  have hauthor : (onStorage author).Ensures rules
      fun _ t => Quiet rules t :=
    (onStorage_ensures author_ensures).mono fun _ _ h => ⟨h.1, h.2⟩
  refine hauthor.bind ?_ fun e t h => h.reconciled
  intro author _ hq₁
  refine (attempt_ensures (reconcileKey_ensures author _)).bind ?_ ?_
  · rintro r t₂ ⟨_, -, h₂⟩
    have h := hq₁.reconciled.trans h₂
    split
    · exact h
    · exact h.setSigner none
    · exact h
  · rintro e _ ⟨_, -, h₂⟩
    exact hq₁.reconciled.trans h₂

/-- All that `initialize` can do: fail in its first part, or pass it and look for the key. -/
def InitializeEffect (C : Crypto) (proof : EpochChangeProof) (rules t : SafetyRules) : Prop :=
  ∃ u, InstallEffect C proof rules ((installEpochState C proof).exec rules).1 u ∧
    Reconciled u t

theorem guardedInitialize_effect (hc : rules.Coherent) (proof) :
    (guardedInitialize C proof).Ensures rules fun _ t => InitializeEffect C proof rules t := by
  have hinstall := @installEpochState_effect C rules hc proof
  have hfirst : (installEpochState C proof).Ensures rules fun r t =>
      ((installEpochState C proof).exec rules).1 = r ∧
        InstallEffect C proof rules ((installEpochState C proof).exec rules).1 t :=
    ⟨rfl, hinstall⟩
  refine hfirst.bind ?_ fun e t h => ⟨t, h.2, (Quiet.refl t).reconciled⟩
  intro state u h
  exact (initializeSigner_ensures state).mono fun _ t ht => ⟨u, h.2, ht⟩

end SafetyRules

end Loki.Diem
