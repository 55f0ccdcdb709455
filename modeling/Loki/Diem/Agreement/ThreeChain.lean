import Loki.Diem.Agreement.Progress

/-!
# Agreement of the three-chain protocol

Honest validators sign votes by `construct_and_sign_vote` and timeouts by `sign_timeout`.  What a
quorum signs to commit is on one chain, in every run of the network.
-/

namespace Loki.Diem

open Loki.Foundation SafetyRules BlockData EpochState Network BlockInfo Nat

variable (C : Crypto) (state : EpochState) (honest : Finset Author)

/-- Votes and timeouts of the three-chain protocol, on blocks of `chain`, with certificates that
are not forged. -/
def ThreeChainAllows (chain : BlockData → Prop) (sent : Sent) : RulesOp → Prop
  | .initializeRules proof => (RulesOp.initializeRules proof).StartsOnly state
  | .constructAndSignVote _ proposal => chain proposal.voteProposal.block.blockData ∧
      Unforged C state.verifier honest sent
        proposal.voteProposal.block.quorumCert.signedLedgerInfo
  | .signTimeout _ => True
  | .signProposal _ => True
  | .restart _ _ _ _ => True
  | _ => False

def threeChain (chain : BlockData → Prop) : Conduct state where
  Allows := ThreeChainAllows C state honest chain
  starts := by
    intro sent op h
    cases op with
    | initializeRules proof => exact h
    | _ => trivial
  mono := by
    intro sent entry op h
    cases op with
    | constructAndSignVote now proposal => exact ⟨h.1, h.2.mono entry⟩
    | _ => exact h

section

variable {C : Crypto} {state : EpochState} {honest : Finset Author} {genesis : BlockData}
  {chain : BlockData → Prop} {logs : Author → List Entry} {net : Network} {a : Author}
  {data : SafetyData} {block : Block} {vote : Vote}

/-- Every vote of the log was signed by the three-chain rules. -/
theorem newVote3_of_mem
    (h : NetworkInvariant C honest (threeChain C state honest chain) [] logs net)
    (ha : a ∈ honest) (hx : .vote data block vote ∈ logs a) :
    chain block.blockData ∧ ∃ rules, NewVote3 C rules data block vote := by
  obtain ⟨-, rules, op, hallows, -, hvotes⟩ := h.vote_signed ha hx
  cases op with
  | constructAndSignVote =>
    obtain ⟨rfl, hnew⟩ := hvotes
    exact ⟨hallows.1, rules, hnew⟩
  | constructAndSignVoteTwoChain => exact hallows.elim
  | _ => exact hvotes.elim

def ThreeChainCommit (V : LockedVoting Author BlockData) (b₀ : BlockData) : Prop :=
  ∃ b₁ b₂, V.NextRound b₀ b₁ ∧ V.NextRound b₁ b₂ ∧ V.parentQcRound b₂ = V.round b₀ ∧
    0 < V.round b₀

variable (htrusted : Trusted C state honest)
  (h : NetworkInvariant C honest (threeChain C state honest (Descends C genesis)) [] logs net)

include htrusted h

theorem threeChain_voteLogs : VoteLogs C state honest logs := by
  refine h.voteLogs htrusted nofun ?_
  intro _ op _ _ _ _ hallows hvotes
  cases op with
  | constructAndSignVote =>
    obtain ⟨rfl, -⟩ := hvotes
    exact hallows.2
  | constructAndSignVoteTwoChain => exact hallows.elim
  | _ => exact hvotes.elim

def lockedVoting : LockedVoting Author BlockData where
  toChainedVoting := (threeChain_voteLogs htrusted h).voting
  lock_le := by
    rintro a ha _ _ ⟨_, _, _, hx, rfl⟩ ⟨_, _, _, hx', rfl⟩ hlt
    obtain ⟨-, _, hnew⟩ := newVote3_of_mem h ha hx'
    have hbelow := (threeChain_voteLogs htrusted h).below_of_round_lt ha hx hx' hlt
    exact hbelow.2.2.trans hnew.preferred_le

theorem threeChain_commit_cases (hgenesis : genesis.round = 0) {li}
    (hli : QuorumVoted state.verifier honest logs li) (hne : li.commitInfo ≠ .empty) :
    li.commitInfo.id = genesis.hash C ∨ ∃ b₀,
      ThreeChainCommit (lockedVoting htrusted h) b₀ ∧ b₀.hash C = li.commitInfo.id := by
  have hlogs := threeChain_voteLogs htrusted h
  obtain ⟨a, ha, _, block, vote, hx, rfl, hcertified₂⟩ := hlogs.exists_certified hli
  obtain ⟨-, _, hnew⟩ := newVote3_of_mem h ha hx
  rcases (constructLedgerInfo_spec hnew.ledgerInfo_eq).2 with hempty | ⟨hcommit, _, _⟩
  · exact absurd hempty hne
  have hne₁ : block.quorumCert.certifiedBlock.round ≠ 0 := by omega
  obtain ⟨b₁, hcertified₁, hparent₁, _, hqc₁⟩ := hlogs.exists_parent ha hx hne₁
  have hvoter : ∃ a' ∈ honest, VotedFor logs a' b₁ :=
    ChainedVoting.Certified.exists_voter (V := hlogs.voting) hcertified₁
  obtain ⟨_, ha', _, block₁, _, hx', rfl⟩ := hvoter
  have hparentId : block₁.parentId = vote.ledgerInfo.commitInfo.id := by
    rw [hcommit]
    exact congrArg BlockInfo.id hqc₁
  have hround₀ := congrArg BlockInfo.round hqc₁
  by_cases hzero : block.quorumCert.parentBlock.round = 0
  · left
    rw [← hparentId]
    exact (newVote3_of_mem h ha' hx').1.parentId_of_round_one hgenesis (by omega)
  · right
    obtain ⟨b₀, hcertified₀, hparent₀, hb₀, -⟩ :=
      hlogs.exists_parent ha' hx' (hround₀.trans_ne hzero)
    have hlock : b₀.round = block.quorumCert.parentBlock.round := hb₀.trans hround₀
    refine ⟨b₀, ⟨block₁.blockData, block.blockData, ⟨hcertified₀, hcertified₁, hparent₀, ?_⟩,
      ⟨hcertified₁, hcertified₂, hparent₁, ?_⟩, hlock.symm, ?_⟩, hparent₀.trans hparentId⟩
    · change block₁.blockData.round = b₀.round + 1
      omega
    · change block.round = block₁.blockData.round + 1
      omega
    · change 0 < b₀.round
      omega

end

/-- Any two ledger infos that a quorum signed in an epoch of the three-chain protocol commit blocks
on one chain. -/
theorem threeChain_agreement (htrusted : Trusted C state honest) (boundary : LedgerInfo)
    (genesis : BlockData) (hgenesis : newGenesisFromLedgerInfo boundary = some genesis)
    (start net : Network) (hstart : start.Start honest state) (hsent : start.sent = [])
    (hrun : Relation.ReflTransGen
      (Step C honest (threeChain C state honest (Descends C genesis))) start net)
    (li₁ li₂ : LedgerInfoWithSignatures)
    (hli₁ : QuorumCommits C state.verifier honest net.sent li₁)
    (hli₂ : QuorumCommits C state.verifier honest net.sent li₂) : OnOneChain C li₁ li₂ := by
  obtain ⟨_, h⟩ := reachable_invariant hstart hrun
  rw [hsent] at h
  have hcases {li} (hli : QuorumCommits C state.verifier honest net.sent li) :=
    threeChain_commit_cases htrusted h (newGenesisFromLedgerInfo_round hgenesis)
      (h.quorumVoted hli.signed hli.unforged nofun) hli.commits
  refine isAncestor_total ?_ ?_ (hcases hli₁) (hcases hli₂)
  · rintro b₀ ⟨b₁, b₂, hb, -⟩
    obtain ⟨a, ha, _, _, _, hx, rfl⟩ := hb.certified.exists_voter
    exact (newVote3_of_mem h ha hx).1.isAncestor
  · rintro _ _ ⟨_, _, hb₀, hb₁, hlock, hpos⟩ ⟨c₁, c₂, hc, -⟩ hle
    exact (threeChain_voteLogs htrusted h).isAncestor_of_ancestor
      (LockedVoting.ancestor_of_commit hb₀ hb₁ hlock hpos hc.certified hle)

/-! ## Commits of the major validator -/

theorem Tip.threeChain_step {epoch chain qc data d₁ d₂ commitInfo} {net : Network} (round : Nat)
    (h : Tip epoch chain net.sent qc)
    (hnode : net.nodes 1 = voting epoch data) (hround : qc.certifiedBlock.round < round)
    (hepoch : data.epoch = epoch) (hcontinues : commitInfo.nextEpochState = none)
    (hnew : data.votedIn round = none)
    (hpreferred : data.verifyAndUpdatePreferredRound qc = .ok d₁)
    (hlast : d₁.verifyAndUpdateLastVoteRound round = .ok d₂)
    (hli : constructLedgerInfo (qc.nilBlock round) ((qc.nilVoteData round).hash .ideal) =
      .ok ⟨commitInfo, (qc.nilVoteData round).hash .ideal⟩) :
    net.Votes (threeChain .ideal (.major epoch) {1} chain) chain qc round commitInfo d₂ := by
  refine h.exists_step (.constructAndSignVote 0 (qc.nilProposal round)) hround hcontinues
    ⟨h.next round hround, h.unforged⟩ ?_
  have hverify := h.exec_verifyProposal hround hepoch
  have hblock : (qc.nilBlock round).round = round ∧ (qc.nilBlock round).quorumCert = qc :=
    ⟨rfl, rfl⟩
  rw [hnode]
  change (voting epoch data).perform _ _ = _
  simp only [perform, constructAndSignVote, Call.exec_bind, exec_getSigner_voting, hverify,
    exec_safetyData_voting, hblock, hnew, hpreferred, hlast, hli, Call.exec_check, mapErr]
  rfl

theorem threeChain_agreement_major :
    ∃ (genesis : BlockData) (net : Network) (li₁ li₂ : LedgerInfoWithSignatures),
      newGenesisFromLedgerInfo (major 1).boundary = some genesis ∧
      Relation.ReflTransGen
        (Step .ideal {1} (threeChain .ideal (.major 1) {1} (Descends .ideal genesis)))
        (.entering (.major 1) 7 []) net ∧
      li₁.ledgerInfo.commitInfo.round = 0 ∧ li₂.ledgerInfo.commitInfo.round = 1 ∧
      OnOneChain .ideal li₁ li₂ := by
  have htip₀ : Tip 1 (Descends .ideal _) (entering (.major 1) 7 []).sent _ :=
    .of_genesis (major 1).boundary rfl rfl rfl rfl .genesis fun _ _ => .child
  obtain ⟨_, hstep₁, hnode₁, htip₁, -⟩ :=
    htip₀.threeChain_step 1 rfl one_pos rfl rfl rfl rfl rfl rfl
  obtain ⟨_, hstep₂, hnode₂, htip₂, -⟩ :=
    htip₁.threeChain_step 2 hnode₁ one_lt_two rfl rfl rfl rfl rfl rfl
  obtain ⟨net₃, hstep₃, -, htip₃, _, hsent₃⟩ :=
    htip₂.threeChain_step 3 hnode₂ (lt_succ_self 2) rfl rfl rfl rfl rfl rfl
  have hrun := Relation.ReflTransGen.refl.tail hstep₁ |>.tail hstep₂ |>.tail hstep₃
  exact ⟨_, net₃, _, _, rfl, hrun, rfl, rfl,
    threeChain_agreement .ideal (.major 1) {1} (major_trusted 1) (major 1).boundary _ rfl _
      net₃ (entering_start _ _ _ _) rfl hrun _ _
      (hsent₃ ▸ (htip₂.mono _).quorumCommits (succ_ne_zero 1) one_ne_zero)
      (htip₃.quorumCommits (succ_ne_zero 2) one_ne_zero)⟩

/-- A certificate of round 0 carries no signatures.  This one names a block of the caller's
choice. -/
noncomputable def forgedGenesis (block : BlockData) : QuorumCert :=
  .unsigned .ideal { BlockInfo.empty with epoch := block.epoch, id := block.hash .ideal }

theorem endsIn_extensible (genesis : BlockData) : Extensible (EndsIn .ideal genesis) :=
  fun _ _ hparent hid _ => hparent.tail ⟨_, rfl, hid⟩

theorem Tip.of_forgedGenesis {genesis block : BlockData} {sent : Sent}
    (h : EndsIn .ideal genesis block) :
    Tip block.epoch (EndsIn .ideal genesis) sent (forgedGenesis block) where
  verify := QuorumCert.verify_of_genesis rfl rfl rfl rfl rfl
  epoch_eq := rfl
  version := rfl
  continues := rfl
  extensible := endsIn_extensible genesis
  next _ _ := h.tail ⟨_, rfl, rfl⟩
  unforged _ _ _ hget := by simp [forgedGenesis, QuorumCert.unsigned] at hget

/-- Where rounds need not grow along the chain, two blocks over a certificate of round 0 that names
a block of round 5 commit that block, and three more over the genesis block a sibling of it. -/
theorem threeChain_disagreement_forged_genesis :
    ∃ (genesis : BlockData) (net : Network) (li₁ li₂ : LedgerInfoWithSignatures),
      newGenesisFromLedgerInfo (major 1).boundary = some genesis ∧
      Relation.ReflTransGen
        (Step .ideal {1} (threeChain .ideal (.major 1) {1} (EndsIn .ideal genesis)))
        (.entering (.major 1) 7 []) net ∧
      QuorumCommits .ideal .major {1} net.sent li₁ ∧ QuorumCommits .ideal .major {1} net.sent li₂ ∧
      ¬ OnOneChain .ideal li₁ li₂ := by
  have htip₀ : Tip 1 (EndsIn .ideal _) (entering (.major 1) 7 []).sent _ :=
    .of_genesis (major 1).boundary rfl rfl rfl rfl .refl (endsIn_extensible _)
  have hforged : Tip _ _ (entering (.major 1) 7 []).sent _ :=
    .of_forgedGenesis (htip₀.next 5 (succ_pos 4))
  obtain ⟨_, hstep₁, hnode₁, htip₁, _, hsent₁⟩ :=
    hforged.threeChain_step 1 rfl one_pos rfl rfl rfl rfl rfl rfl
  obtain ⟨_, hstep₂, hnode₂, htip₂, _, hsent₂⟩ :=
    htip₁.threeChain_step 2 hnode₁ one_lt_two rfl rfl rfl rfl rfl rfl
  have htip₀' := hsent₂ ▸ hsent₁ ▸ (htip₀.mono _).mono _
  obtain ⟨_, hstep₃, hnode₃, htip₃, _, hsent₃⟩ :=
    htip₀'.threeChain_step 3 hnode₂ (succ_pos 2) rfl rfl rfl rfl rfl rfl
  obtain ⟨_, hstep₄, hnode₄, htip₄, _, hsent₄⟩ :=
    htip₃.threeChain_step 4 hnode₃ (lt_succ_self 3) rfl rfl rfl rfl rfl rfl
  obtain ⟨net₅, hstep₅, -, htip₅, _, hsent₅⟩ :=
    htip₄.threeChain_step 5 hnode₄ (lt_succ_self 4) rfl rfl rfl rfl rfl rfl
  refine ⟨_, net₅, _, _, rfl,
    Relation.ReflTransGen.refl.tail hstep₁ |>.tail hstep₂ |>.tail hstep₃ |>.tail hstep₄
      |>.tail hstep₅,
    hsent₅ ▸ hsent₄ ▸ hsent₃ ▸ (((htip₂.mono _).mono _).mono _).quorumCommits (succ_ne_zero 1)
      one_ne_zero,
    htip₅.quorumCommits (succ_ne_zero 4) one_ne_zero, ?_⟩
  exact not_isAncestor_siblings Crypto.ideal_collisionFree Crypto.ideal_hash_ne_zero rfl
    (by decide) (by decide) (by decide) rfl rfl

/-! ## Quorum certificates -/

/-- The certificate of a vote, with a signature of the other validator as well. -/
noncomputable def Vote.countersigned (vote : Vote) : QuorumCert :=
  let cert := vote.certificate
  { cert with signedLedgerInfo := { cert.signedLedgerInfo with
      signatures := cert.signedLedgerInfo.signatures.insert 2
        (Crypto.ideal.sign 8 (.ledgerInfo vote.ledgerInfo)) } }

theorem Tip.countersigned {epoch round chain sent sent' qc commitInfo}
    (h : Tip epoch chain sent qc) (hround : qc.certifiedBlock.round < round)
    (hvote : Tip epoch chain sent' (qc.nilVote round commitInfo).certificate) :
    (qc.nilVote round commitInfo).countersigned.verify .ideal .major = .ok () ∧
      Unforged .ideal .major {1} sent'
        (qc.nilVote round commitInfo).countersigned.signedLedgerInfo := by
  have hquorum : ValidatorVerifier.major.HasQuorum {1, 2} := ⟨by decide, by decide⟩
  refine ⟨QuorumCert.verify_of_signed (major_trusted epoch).wellFormed.noOverflow rfl
    (ne_zero_of_lt hround) ⟨hquorum, fun a _ hget => ?_⟩
    (VoteData.verify_of rfl hround le_rfl h.version.le), fun a ha signature hget => ?_⟩
  all_goals
    change ((_ : BTreeMap AccountAddress Signature).insert 2 _)[a]? = _ at hget
    rw [Std.ExtTreeMap.getElem?_insert] at hget
  · split at hget
    next heq =>
      obtain rfl := Std.LawfulEqCmp.eq_of_compare heq
      cases hget
      exact ⟨8, rfl, Crypto.ideal_verify_sign 8 _⟩
    · obtain ⟨rfl, rfl⟩ := getElem?_singleton hget
      exact major_signed _
  · obtain rfl := Finset.mem_singleton.mp ha
    exact hvote.unforged 1 ha signature hget

end Loki.Diem
