import Loki.Diem.Agreement.Progress

/-!
# Agreement of the two-chain protocol

Honest validators sign votes by `construct_and_sign_vote_two_chain` and timeouts by
`sign_timeout_with_qc`.  A vote that skips rounds is allowed by a timeout certificate, and
`verify_tc` does not look at the epoch of the certificate.  Where all certificates are of the
current epoch, what a quorum signs to commit is on one chain.  A certificate of an earlier epoch
has nothing to say about the rounds of this one, and two blocks can be committed side by side.
-/

namespace Loki.Diem

open BlockInfo List Hashed Crypto

open Loki.Foundation SafetyRules BlockData EpochState Network HashValue Relation.ReflTransGen

variable (C : Crypto) (state : EpochState) (honest : Finset Author)

def UnforgedTc (verifier : ValidatorVerifier) (honest : Finset Author) (sent : Sent)
    (tc : TwoChainTimeoutCertificate) : Prop :=
  ∀ author ∈ honest, ∀ (qcRound : Nat) (signature : Signature),
    tc.signatures[author]? = some (qcRound, signature) →
    verifier.Signed C (.timeoutSigningRepr (tc.signedRepr qcRound)) author signature →
      (author, .twoChainTimeout (tc.signedRepr qcRound)) ∈ sent

/-- Votes and timeouts of the two-chain protocol, on blocks of `chain`, with certificates that are
not forged.  Timeout certificates are from `certs`. -/
def TwoChainAllows (chain : BlockData → Prop) (certs : TwoChainTimeoutCertificate → Prop)
    (sent : Sent) : RulesOp → Prop
  | .initializeRules proof => (RulesOp.initializeRules proof).StartsOnly state
  | .constructAndSignVoteTwoChain _ proposal tc =>
    chain proposal.voteProposal.block.blockData ∧
      Unforged C state.verifier honest sent
        proposal.voteProposal.block.quorumCert.signedLedgerInfo ∧
      ∀ cert ∈ tc, certs cert ∧ UnforgedTc C state.verifier honest sent cert
  | .signTimeoutWithQc _ tc =>
    ∀ cert ∈ tc, certs cert ∧ UnforgedTc C state.verifier honest sent cert
  | .signProposal _ => True
  | .restart _ _ _ _ => True
  | _ => False

theorem UnforgedTc.mono {C verifier honest sent tc} (h : UnforgedTc C verifier honest sent tc)
    (entry : Author × Output) : UnforgedTc C verifier honest (entry :: sent) tc :=
  fun author hauthor qcRound signature hget hsigned =>
    mem_cons_of_mem _ (h author hauthor qcRound signature hget hsigned)

def twoChain (chain : BlockData → Prop) (certs : TwoChainTimeoutCertificate → Prop) :
    Conduct state where
  Allows := TwoChainAllows C state honest chain certs
  starts := by
    intro sent op h
    cases op with
    | initializeRules proof => exact h
    | _ => trivial
  mono := by
    intro sent entry op h
    cases op with
    | constructAndSignVoteTwoChain now proposal tc =>
      exact ⟨h.1, h.2.1.mono entry, fun cert hcert =>
        ⟨(h.2.2 cert hcert).1, (h.2.2 cert hcert).2.mono entry⟩⟩
    | signTimeoutWithQc timeout tc =>
      exact fun cert hcert => ⟨(h cert hcert).1, (h cert hcert).2.mono entry⟩
    | _ => exact h

structure EarlierSent (C : Crypto) (epoch : Nat) (sent : Sent) : Prop where
  votes : ∀ author vote, (author, .vote vote) ∈ sent → EarlierVote C epoch vote
  timeouts : ∀ author t, (author, .twoChainTimeout t) ∈ sent → t.epoch < epoch

theorem safeToVote_spec {block} {tc : Option TwoChainTimeoutCertificate}
    (h : safeToVote block tc = .ok ()) :
    block.round = block.quorumCert.certifiedBlock.round + 1 ∨
      (block.round = tcRound tc + 1 ∧
        tcHqcRound tc ≤ block.quorumCert.certifiedBlock.round) := by
  obtain ⟨_, hnext, h⟩ := bind_eq_ok.mp h
  rw [← nextRound_eq_ok hnext]
  split at h
  · next hround => exact .inl hround
  · simp only [bind_eq_ok, pure_eq_ok, ensure_eq_ok] at h
    obtain ⟨_, hnextTc, _, hsafe, htrue⟩ := h
    subst htrue
    simp only [Bool.and_eq_true, decide_eq_true_eq] at hsafe
    exact .inr ⟨hsafe.1.trans (nextRound_eq_ok hnextTc), hsafe.2⟩

theorem safeToTimeout_spec {timeout} {tc : Option TwoChainTimeoutCertificate}
    {data} (h : safeToTimeout timeout tc data = .ok ()) :
    data.oneChainRound ≤ timeout.hqcRound := by
  obtain ⟨_, -, h⟩ := bind_eq_ok.mp h
  split at h
  · simp only [bind_eq_ok, pure_eq_ok, ensure_eq_ok] at h
    obtain ⟨follows, -, hfollows⟩ := h
    exact hfollows.2
  · simp only [bind_eq_ok, pure_eq_ok, ensure_eq_ok] at h
    obtain ⟨_, -, _, -, hfollows⟩ := h
    exact hfollows.2

section

variable {C : Crypto} {state : EpochState} {honest : Finset Author} {genesis : BlockData}
  {chain : BlockData → Prop} {certs : TwoChainTimeoutCertificate → Prop} {past : Sent}
  {logs : Author → List Entry} {net : Network} {a : Author} {data : SafetyData} {block : Block}
  {vote : Vote}

section

variable (h : NetworkInvariant C honest (twoChain C state honest chain certs) past logs net)
  (ha : a ∈ honest)

include h ha

/-- Every vote of the log was signed by the two-chain rules. -/
theorem newVote2_of_mem (hx : .vote data block vote ∈ logs a) :
    chain block.blockData ∧ ∃ rules tc,
      (∀ s, rules.epochState = some s → s = state) ∧
      (∀ cert ∈ tc, certs cert ∧ UnforgedTc C state.verifier honest net.sent cert) ∧
      NewVote2 C tc rules data block vote := by
  obtain ⟨-, rules, op, hallows, hstate, hvotes⟩ := h.vote_signed ha hx
  cases op with
  | constructAndSignVote => exact hallows.elim
  | constructAndSignVoteTwoChain _ _ tc =>
    obtain ⟨rfl, hnew⟩ := hvotes
    exact ⟨hallows.1, rules, tc, hstate, hallows.2.2, hnew⟩
  | _ => exact hvotes.elim

theorem oneChainRound_le_of_mem
    {t} (hx : .timeout data t ∈ logs a) : data.oneChainRound ≤ t.hqcRound := by
  obtain ⟨_, op, -, -, -, hsigned⟩ := h.signed a ha _ hx
  have htimes : op.TimesOut data (.twoChainTimeout t) := hsigned
  cases op with
  | signTimeout => cases htimes.1
  | signTimeoutWithQc =>
    obtain ⟨heq, hallowed⟩ := htimes
    cases heq
    exact safeToTimeout_spec hallowed.safe
  | _ => exact htimes.elim

end

/-- The author timed out in the round, knowing a certificate of round `hqc`. -/
def TimedOut (epoch : Nat) (logs : Author → List Entry) (author : Author) (round hqc : Nat) :
    Prop :=
  ∃ data, .timeout data { epoch := epoch, round := round, hqcRound := hqc } ∈ logs author

def TwoChainCommit (V : TimedVoting Author BlockData) (b₀ : BlockData) : Prop :=
  ∃ b₁, V.NextRound b₀ b₁ ∧ V.qcRound b₁ = V.round b₀ ∧ 0 < V.round b₀

variable (htrusted : Trusted C state honest) (hpast : EarlierSent C state.epoch past)
  (h : NetworkInvariant C honest
    (twoChain C state honest (Descends C genesis) fun cert => cert.epoch = state.epoch) past logs
    net)

include htrusted hpast h

theorem twoChain_voteLogs : VoteLogs C state honest logs := by
  refine h.voteLogs htrusted (fun a _ vote hmem => hpast.votes a vote hmem) ?_
  intro _ op _ _ _ _ hallows hvotes
  cases op with
  | constructAndSignVote => exact hallows.elim
  | constructAndSignVoteTwoChain =>
    obtain ⟨rfl, -⟩ := hvotes
    exact hallows.2.1
  | _ => exact hvotes.elim

/-- The votes and timeouts of the two-chain protocol, if all timeout certificates are of the
current epoch. -/
def timedVoting : TimedVoting Author BlockData where
  toChainedVoting := (twoChain_voteLogs htrusted hpast h).voting
  timedOut := TimedOut state.epoch logs
  timeout_ge := by
    rintro a ha _ t _ ⟨data, block, vote, hx, rfl⟩ ⟨_, hy⟩ hle
    have hround : block.round ≤ t := hle
    have hlogs := twoChain_voteLogs htrusted hpast h
    rcases hlogs.ordered a ha _ hx _ hy with heq | hbelow | hbelow
    · cases heq
    · exact hbelow.2.1.trans (oneChainRound_le_of_mem h ha hy)
    · have hgt := (hlogs.facts a ha _ _ _ hx).round_gt
      have hle' : t ≤ data.lastVotedRound := hbelow
      omega
  safe := by
    rintro a ha _ ⟨_, block, _, hx, rfl⟩
    obtain ⟨-, _, tc, hstate, htc, hnew⟩ := newVote2_of_mem h ha hx
    rcases safeToVote_spec hnew.safe with hnext | ⟨hround, hhqc⟩
    · exact .inl hnext
    cases tc with
    | none =>
      -- without a certificate only round 1 is left, whose certificate is of round 0
      have hlogs := twoChain_voteLogs htrusted hpast h
      have hlt := (hlogs.facts a ha _ _ _ hx).verified.round_lt
      have hround' : block.round = 1 := hround
      left
      change block.round = block.quorumCert.certifiedBlock.round + 1
      omega
    | some cert =>
      obtain ⟨s, hs, hverified⟩ := hnew.tc_verified cert rfl
      obtain rfl := hstate s hs
      obtain ⟨hepoch, hunforged⟩ := htc cert rfl
      refine .inr ⟨_, cert.round, hverified.quorum.isQuorum htrusted.wellFormed htrusted.faulty,
        hround, ?_⟩
      intro j hj hjh
      obtain ⟨⟨qcRound, signature⟩, hget⟩ := mem_authorsOf_iff.mp hj
      have hsent := hunforged j hjh qcRound signature hget
        (hverified.signed j qcRound signature hget)
      refine ⟨qcRound, (hverified.signed_le j qcRound signature hget).trans hhqc, ?_⟩
      rcases h.timeouts j hjh _ hsent hepoch with hold | ⟨d, hmem⟩
      · have hlt := hpast.timeouts j _ hold
        exact absurd hepoch hlt.ne
      · refine ⟨d, ?_⟩
        rw [← hepoch]
        exact hmem

theorem twoChain_commit_cases (hgenesis : genesis.round = 0) {li}
    (hli : QuorumVoted state.verifier honest logs li) (hne : li.commitInfo ≠ .empty) :
    li.commitInfo.id = genesis.hash C ∨ ∃ b₀,
      TwoChainCommit (timedVoting htrusted hpast h) b₀ ∧ b₀.hash C = li.commitInfo.id := by
  have hlogs := twoChain_voteLogs htrusted hpast h
  obtain ⟨a, ha, _, block, vote, hx, rfl, hcertified₁⟩ := hlogs.exists_certified hli
  obtain ⟨hdescends, _, _, -, -, hnew⟩ := newVote2_of_mem h ha hx
  have hcommit := (constructLedgerInfo2chain_spec hnew.ledgerInfo_eq).2
  split at hcommit
  swap
  · exact absurd hcommit hne
  next hround =>
  have hparentId : block.parentId = vote.ledgerInfo.commitInfo.id := by
    rw [hcommit]
    rfl
  by_cases hzero : block.quorumCert.certifiedBlock.round = 0
  · left
    have hone : block.blockData.round = 1 := by
      rw [hzero] at hround
      exact hround.symm
    rw [← hparentId]
    exact hdescends.parentId_of_round_one hgenesis hone
  · right
    obtain ⟨b₀, hcertified₀, hparent, hb₀, -⟩ := hlogs.exists_parent ha hx hzero
    refine ⟨b₀, ⟨block.blockData, ⟨hcertified₀, hcertified₁, hparent, ?_⟩, hb₀.symm, ?_⟩,
      hparent.trans hparentId⟩
    · change block.round = b₀.round + 1
      omega
    · change 0 < b₀.round
      omega

end

/-- Any two ledger infos of an epoch that a quorum signed in the two-chain protocol commit blocks
on one chain, in every run whose timeout certificates are of that epoch. -/
theorem twoChain_agreement (htrusted : Trusted C state honest) (boundary : LedgerInfo)
    (genesis : BlockData) (hgenesis : newGenesisFromLedgerInfo boundary = some genesis)
    (start net : Network) (hstart : start.Start honest state)
    (hpast : EarlierSent C state.epoch start.sent)
    (hrun : Relation.ReflTransGen (Step C honest (twoChain C state honest (Descends C genesis)
      fun cert => cert.epoch = state.epoch)) start net) (li₁ li₂ : LedgerInfoWithSignatures)
    (hepoch₁ : li₁.ledgerInfo.epoch = state.epoch) (hepoch₂ : li₂.ledgerInfo.epoch = state.epoch)
    (hli₁ : QuorumCommits C state.verifier honest net.sent li₁)
    (hli₂ : QuorumCommits C state.verifier honest net.sent li₂) : OnOneChain C li₁ li₂ := by
  obtain ⟨_, h⟩ := reachable_invariant hstart hrun
  have hcases {li : LedgerInfoWithSignatures} (hepoch : li.ledgerInfo.epoch = state.epoch)
      (hli : QuorumCommits C state.verifier honest net.sent li) :=
    twoChain_commit_cases htrusted hpast h (newGenesisFromLedgerInfo_round hgenesis)
      (h.quorumVoted hli.signed hli.unforged fun author _ vote hmem heq => by
        have hlt := (hpast.votes author vote hmem).commit_lt
        rw [heq, hepoch] at hlt
        exact lt_irrefl _ hlt) hli.commits
  refine isAncestor_total ?_ ?_ (hcases hepoch₁ hli₁) (hcases hepoch₂ hli₂)
  · rintro b₀ ⟨b₁, hb, -⟩
    obtain ⟨a, ha, _, _, _, hx, rfl⟩ := hb.certified.exists_voter
    exact (newVote2_of_mem h ha hx).1.isAncestor
  · rintro _ _ ⟨_, hb, hqc, hpos⟩ ⟨_, hc, -⟩ hle
    exact (twoChain_voteLogs htrusted hpast h).isAncestor_of_ancestor
      (TimedVoting.ancestor_of_commit hb hqc hpos hc.certified hle)

/-! ## Commits of the major validator -/

theorem Tip.twoChain_step {epoch chain qc data d commitInfo} {net : Network} (certs)
    (round : Nat) (tc : Option TwoChainTimeoutCertificate) (h : Tip epoch chain net.sent qc)
    (hnode : net.nodes 1 = voting epoch data) (hround : qc.certifiedBlock.round < round)
    (hepoch : data.epoch = epoch) (hcontinues : commitInfo.nextEpochState = none)
    (htc : ∀ cert ∈ tc, (certs cert ∧ UnforgedTc .ideal .major {1} net.sent cert) ∧
      cert.verify .ideal .major = .ok ()) (hnew : data.votedIn round = none)
    (hlast : data.verifyAndUpdateLastVoteRound round = .ok d)
    (hsafe : safeToVote (qc.nilBlock round) tc = .ok ())
    (hli : constructLedgerInfo2chain (qc.nilBlock round) ((qc.nilVoteData round).hash .ideal) =
      .ok ⟨commitInfo, (qc.nilVoteData round).hash .ideal⟩) :
    net.Votes (twoChain .ideal (.major epoch) {1} chain certs) chain qc round commitInfo
      (d.observeQc qc) := by
  refine h.exists_step (.constructAndSignVoteTwoChain 0 (qc.nilProposal round) tc) hround hcontinues
    ⟨h.next round hround, h.unforged, fun cert hcert => (htc cert hcert).1⟩ ?_
  have hverify := h.exec_verifyProposal hround hepoch
  have hcert : (verifyTc? .ideal tc).exec (voting epoch data) = (.ok (), voting epoch data) := by
    cases tc with
    | none => rfl
    | some cert =>
      have hexec : (verifyTc .ideal cert).exec (voting epoch data) =
        (mapErr .error (mapErr .invalidTimeoutCertificate (cert.verify .ideal .major)), _) := rfl
      rw [verifyTc?, hexec, (htc cert rfl).2]
      rfl
  have hblock : (qc.nilBlock round).round = round ∧ (qc.nilBlock round).quorumCert = qc :=
    ⟨rfl, rfl⟩
  rw [hnode]
  change (voting epoch data).perform _ _ = _
  simp only [perform, constructAndSignVoteTwoChain, Call.exec_bind, exec_getSigner_voting, hverify,
    hcert, exec_safetyData_voting, hblock, hnew, hlast, hsafe, hli, Call.exec_check, mapErr]
  rfl

noncomputable def TwoChainTimeout.certificate (timeout : TwoChainTimeout) :
    TwoChainTimeoutCertificate where
  timeout := timeout
  signatures := (∅ : BTreeMap Author (Nat × Signature)).insert 1
    (timeout.hqcRound, ideal.sign 7 (.timeoutSigningRepr timeout.signingFormat))

/-- The certificate of a timeout that was sent passes, in this epoch or another one. -/
theorem TwoChainTimeout.certificate_spec (timeout : TwoChainTimeout) {sent : Sent}
    (hqc : timeout.quorumCert.verify ideal .major = .ok ()) (hlt : timeout.hqcRound < timeout.round)
    (hsent : (1, .twoChainTimeout timeout.signingFormat) ∈ sent) :
    UnforgedTc ideal .major {1} sent timeout.certificate ∧
      timeout.certificate.verify ideal .major = .ok () := by
  constructor
  · intro a _ _ _ hget _
    obtain ⟨rfl, heq⟩ := getElem?_singleton hget
    cases heq
    exact hsent
  · have hkeys : timeout.certificate.signatures.keys = [1] := rfl
    have hlist : timeout.certificate.signatures.toList =
        [(1, timeout.hqcRound, ideal.sign 7 (.timeoutSigningRepr timeout.signingFormat))] := rfl
    simp only [TwoChainTimeoutCertificate.verify, bind_eq_ok, ensure_eq_ok, mapErr_eq_ok, hkeys,
      hlist, TwoChainTimeoutCertificate.verifySignatures, ValidatorVerifier.verify_eq_ok]
    exact ⟨(), hlt, (), hqc, (), rfl, _, ⟨(), major_signed _, rfl⟩, (Nat.zero_max _).symm⟩

theorem twoChain_agreement_major :
    ∃ (genesis : BlockData) (net : Network) (li₁ li₂ : LedgerInfoWithSignatures),
      newGenesisFromLedgerInfo (major 1).boundary = some genesis ∧
      Relation.ReflTransGen (Step .ideal {1} (twoChain .ideal (.major 1) {1}
        (Descends .ideal genesis) fun cert => cert.epoch = 1)) (.entering (.major 1) 7 []) net ∧
      li₁.ledgerInfo.commitInfo.round = 1 ∧ li₂.ledgerInfo.commitInfo.round = 2 ∧
      OnOneChain .ideal li₁ li₂ := by
  have htip₀ : Tip 1 (Descends .ideal _) (entering (.major 1) 7 []).sent _ :=
    .of_genesis (major 1).boundary rfl rfl rfl rfl .genesis fun _ _ => .child
  obtain ⟨_, hstep₁, hnode₁, htip₁, -⟩ :=
    htip₀.twoChain_step (·.epoch = 1) 1 none rfl Nat.one_pos rfl rfl nofun rfl rfl rfl rfl
  obtain ⟨_, hstep₂, hnode₂, htip₂, -⟩ :=
    htip₁.twoChain_step _ 2 none hnode₁ Nat.one_lt_two rfl rfl nofun rfl rfl rfl rfl
  obtain ⟨net₃, hstep₃, -, htip₃, _, hsent₃⟩ :=
    htip₂.twoChain_step _ 3 none hnode₂ (Nat.lt_succ_self 2) rfl rfl nofun rfl rfl rfl rfl
  have hrun := refl.tail hstep₁ |>.tail hstep₂ |>.tail hstep₃
  exact ⟨_, net₃, _, _, rfl, hrun, rfl, rfl,
    twoChain_agreement .ideal (.major 1) {1} (major_trusted 1) (major 1).boundary _ rfl
      (.entering (.major 1) 7 []) net₃ (entering_start _ _ _ _) ⟨nofun, nofun⟩ hrun _ _ rfl rfl
      (hsent₃ ▸ (htip₂.mono _).quorumCommits (Nat.succ_ne_zero 1) Nat.one_ne_zero)
      (htip₃.quorumCommits (Nat.succ_ne_zero 2) Nat.one_ne_zero)⟩

/-- Validator 1 timed out in round 2 of epoch 1.  In epoch 2 the certificate of that timeout lets
it commit two blocks of which neither is an ancestor of the other. -/
theorem twoChain_disagreement_stale_timeout :
    ∃ (genesis : BlockData) (start net : Network) (li₁ li₂ : LedgerInfoWithSignatures),
      newGenesisFromLedgerInfo (major 2).boundary = some genesis ∧
      start.Start {1} (.major 2) ∧
      start.sent = [(1, .twoChainTimeout { epoch := 1, round := 2, hqcRound := 0 })] ∧
      EarlierSent .ideal 2 start.sent ∧
      Relation.ReflTransGen (Step .ideal {1} (twoChain .ideal (.major 2) {1}
        (Descends .ideal genesis) fun _ => True)) start net ∧
      li₁.ledgerInfo.epoch = 2 ∧ li₂.ledgerInfo.epoch = 2 ∧
      QuorumCommits .ideal .major {1} net.sent li₁ ∧ QuorumCommits .ideal .major {1} net.sent li₂ ∧
      ¬ OnOneChain .ideal li₁ li₂ := by
  let past : Sent := [(1, .twoChainTimeout { epoch := 1, round := 2, hqcRound := 0 })]
  have htip₀ : Tip 2 (Descends .ideal _) (entering (.major 2) 7 past).sent _ :=
    .of_genesis (major 2).boundary rfl rfl rfl rfl .genesis fun _ _ => .child
  -- the first chain: a block of round 1, committed by the block of round 2
  obtain ⟨_, hstep₁, hnode₁, htip₁, _, hsent₁⟩ :=
    htip₀.twoChain_step _ 1 none rfl Nat.one_pos rfl rfl nofun rfl rfl rfl rfl
  obtain ⟨_, hstep₂, hnode₂, htip₂, _, hsent₂⟩ :=
    htip₁.twoChain_step _ 2 none hnode₁ Nat.one_lt_two rfl rfl nofun rfl rfl rfl rfl
  replace hsent₂ : _ = _ :: _ :: past := hsent₁ ▸ hsent₂
  -- the second chain: the stale certificate allows a block of round 3 over the genesis block
  have htip₀' := hsent₂ ▸ (htip₀.mono _).mono _
  obtain ⟨hunforged, hverify⟩ :=
    TwoChainTimeout.certificate_spec ⟨1, 2, _⟩ htip₀'.verify Nat.two_pos
      (hsent₂ ▸ mem_cons_of_mem _ (mem_cons_of_mem _ mem_cons_self))
  obtain ⟨_, hstep₃, hnode₃, htip₃, _, hsent₃⟩ :=
    htip₀'.twoChain_step (fun _ => True) 3 (some _) hnode₂ (Nat.succ_pos 2) rfl rfl
      (fun _ h => Option.some.inj h ▸ ⟨⟨trivial, hunforged⟩, hverify⟩) rfl rfl rfl rfl
  obtain ⟨net₄, hstep₄, -, htip₄, _, hsent₄⟩ :=
    htip₃.twoChain_step _ 4 none hnode₃ (Nat.lt_succ_self 3) rfl rfl nofun rfl rfl rfl rfl
  refine ⟨_, _, net₄, _, _, rfl, entering_start _ _ _ _, rfl, ⟨?_, ?_⟩,
    refl.tail hstep₁ |>.tail hstep₂ |>.tail hstep₃ |>.tail hstep₄, rfl, rfl,
    hsent₄ ▸ hsent₃ ▸ ((htip₂.mono _).mono _).quorumCommits (Nat.succ_ne_zero 1) Nat.two_pos.ne',
    htip₄.quorumCommits (Nat.succ_ne_zero 3) Nat.two_pos.ne', ?_⟩
  · intro author _ hmem
    cases mem_singleton.mp hmem
  · intro _ t hmem
    cases mem_singleton.mp hmem
    exact Nat.one_lt_two
  · exact not_isAncestor_siblings ideal_collisionFree ideal_hash_ne_zero rfl (by decide)
      (by decide) (by decide) rfl rfl

end Loki.Diem
