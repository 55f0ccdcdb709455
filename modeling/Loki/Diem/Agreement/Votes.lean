import Loki.Diem.Network
import Loki.Foundation.ChainAgreement

/-!
# The votes of an epoch

What the logs of the honest validators say about certified blocks, for both protocols: a ledger
info that carries the signatures of a quorum was voted for by the honest members of that quorum,
and all these votes are for one block.  This makes the logs an instance of chained voting.
-/

namespace Loki.Diem

open Loki.Foundation SafetyRules Hashed

/-! ## Blocks and ancestors -/

/-- The block has a chain of parents, with growing rounds, that ends in `genesis`. -/
inductive BlockData.Descends (C : Crypto) (genesis : BlockData) : BlockData → Prop
  | genesis : Descends C genesis genesis
  | child {parent block : BlockData} (parent_descends : Descends C genesis parent)
      (parent_eq : block.parentId = parent.hash C) (round_lt : parent.round < block.round) :
      Descends C genesis block

variable (C : Crypto) (verifier : ValidatorVerifier) (honest : Finset Author)
  (logs : Author → List Entry)

def IsParent (parent child : HashValue) : Prop :=
  ∃ block : BlockData, block.hash C = child ∧ block.parentId = parent

def IsAncestor : HashValue → HashValue → Prop := Relation.ReflTransGen (IsParent C)

/-- The chain of parents ends in `genesis`, whatever the rounds of the blocks. -/
def BlockData.EndsIn (genesis block : BlockData) : Prop :=
  IsAncestor C (genesis.hash C) (block.hash C)

namespace BlockData.Descends

variable {C : Crypto} {genesis block : BlockData}

theorem isAncestor (h : Descends C genesis block) : EndsIn C genesis block := by
  induction h with
  | genesis => exact .refl
  | child _ parent_eq _ ih => exact ih.tail ⟨_, rfl, parent_eq⟩

theorem parentId_of_round_one (h : Descends C genesis block) (hgenesis : genesis.round = 0)
    (hround : block.round = 1) : block.parentId = genesis.hash C := by
  cases h with
  | genesis => omega
  | child parent_descends parent_eq =>
    cases parent_descends with
    | genesis => exact parent_eq
    | child => omega

end BlockData.Descends

theorem BlockData.newGenesisFromLedgerInfo_round {li genesis}
    (h : newGenesisFromLedgerInfo li = some genesis) : genesis.round = 0 := by
  unfold newGenesisFromLedgerInfo at h
  split at h
  · cases h
    rfl
  · cases h

/-- One of the two committed blocks is an ancestor of, or equal to, the other. -/
def OnOneChain (li₁ li₂ : LedgerInfoWithSignatures) : Prop :=
  IsAncestor C li₁.ledgerInfo.commitInfo.id li₂.ledgerInfo.commitInfo.id ∨
    IsAncestor C li₂.ledgerInfo.commitInfo.id li₁.ledgerInfo.commitInfo.id

theorem isAncestor_total {C} {genesis : BlockData} {Commit : BlockData → Prop}
    (hroot : ∀ b, Commit b → IsAncestor C (genesis.hash C) (b.hash C))
    (hchain : ∀ b c, Commit b → Commit c → b.round ≤ c.round →
      IsAncestor C (b.hash C) (c.hash C))
    {id₁ id₂} (h₁ : id₁ = genesis.hash C ∨ ∃ b, Commit b ∧ b.hash C = id₁)
    (h₂ : id₂ = genesis.hash C ∨ ∃ b, Commit b ∧ b.hash C = id₂) :
    IsAncestor C id₁ id₂ ∨ IsAncestor C id₂ id₁ := by
  rcases h₁ with rfl | ⟨b, hb, rfl⟩
  · rcases h₂ with rfl | ⟨c, hc, rfl⟩
    · exact .inl .refl
    · exact .inl (hroot c hc)
  · rcases h₂ with rfl | ⟨c, hc, rfl⟩
    · exact .inr (hroot b hb)
    · rcases Nat.le_total b.round c.round with hle | hle
      · exact .inl (hchain b c hb hc hle)
      · exact .inr (hchain c b hc hb hle)

section

variable {C : Crypto} {genesis block : BlockData}

variable (hC : C.CollisionFree) (hzero : ∀ value, C.hash value ≠ .zero)
  (hroot : genesis.parentId = .zero)

include hC hzero hroot

theorem IsAncestor.of_genesis_child (hparent : block.parentId = genesis.hash C) {id}
    (h : IsAncestor C id (block.hash C)) :
    id = block.hash C ∨ id = genesis.hash C ∨ id = .zero := by
  have hstep : ∀ {b : BlockData} {i : HashValue}, IsParent C i (b.hash C) → i = b.parentId := by
    rintro b i ⟨_, hhash, rfl⟩
    rw [blockData.inj (hC hhash)]
  rcases Relation.ReflTransGen.cases_tail h with heq | ⟨i, hi, hlast⟩
  · exact .inl heq.symm
  obtain rfl : i = genesis.hash C := (hstep hlast).trans hparent
  rcases Relation.ReflTransGen.cases_tail hi with heq | ⟨j, hj, hlast'⟩
  · exact .inr (.inl heq.symm)
  obtain rfl : j = .zero := (hstep hlast').trans hroot
  rcases Relation.ReflTransGen.cases_tail hj with heq | ⟨k, -, b, hhash, -⟩
  · exact .inr (.inr heq.symm)
  · exact absurd hhash (hzero _)

/-- Two children of the genesis block of different rounds are not on one chain. -/
theorem not_isAncestor_siblings {b c : BlockData} (hne : b.round ≠ c.round)
    (hb : b.round ≠ genesis.round) (hc : c.round ≠ genesis.round)
    (hparent : b.parentId = genesis.hash C) (hparent' : c.parentId = genesis.hash C) :
    ¬(IsAncestor C (b.hash C) (c.hash C) ∨ IsAncestor C (c.hash C) (b.hash C)) := by
  have hround {b c : BlockData} (heq : b.hash C = c.hash C) : b.round = c.round :=
    congrArg BlockData.round (blockData.inj (hC heq))
  rintro (h | h)
  · rcases h.of_genesis_child hC hzero hroot hparent' with heq | heq | heq
    exacts [hne (hround heq), hb (hround heq), hzero _ heq]
  · rcases h.of_genesis_child hC hzero hroot hparent with heq | heq | heq
    exacts [hne (hround heq).symm, hc (hround heq), hzero _ heq]

end

/-! ## Logs of votes -/

/-- Both protocols check and record this when they sign a new vote. -/
structure VoteFacts (C : Crypto) (state : EpochState) (data : SafetyData) (block : Block)
    (vote : Vote) : Prop where
  verified : ProposalVerified C state.verifier data block vote.voteData
  epoch_eq : data.epoch = state.epoch
  hash_eq : vote.ledgerInfo.consensusDataHash = vote.voteData.hash C
  round_gt : data.lastVotedRound < block.round

def QuorumVoted (li : LedgerInfo) : Prop :=
  ∃ Q, verifier.HasQuorum Q ∧ ∀ author ∈ Q, author ∈ honest →
    ∃ data block vote, .vote data block vote ∈ logs author ∧ vote.ledgerInfo = li

/-- Hashes do not collide, and the honest validators have more than two thirds of the power. -/
structure Trusted (C : Crypto) (state : EpochState) (honest : Finset Author) : Prop where
  collisionFree : C.CollisionFree
  wellFormed : state.verifier.WellFormed
  faulty : 3 * state.verifier.power (state.verifier.authors \ honest) <
    state.verifier.power state.verifier.authors

/-- Logs of honest validators, each vote over a certificate that a quorum voted for. -/
structure VoteLogs (C : Crypto) (state : EpochState) (honest : Finset Author)
    (logs : Author → List Entry) : Prop extends Trusted C state honest where
  facts : ∀ author ∈ honest, ∀ data block vote, .vote data block vote ∈ logs author →
    VoteFacts C state data block vote
  ordered : ∀ author ∈ honest, ∀ x ∈ logs author, ∀ y ∈ logs author,
    x = y ∨ x.Below y.data ∨ y.Below x.data
  justified : ∀ author ∈ honest, ∀ data block vote, .vote data block vote ∈ logs author →
    block.quorumCert.certifiedBlock.round ≠ 0 →
      QuorumVoted state.verifier honest logs block.quorumCert.ledgerInfo

def VotedFor (author : Author) (block : BlockData) : Prop :=
  ∃ data b vote, .vote data b vote ∈ logs author ∧ b.blockData = block

namespace VoteLogs

variable {C : Crypto} {state : EpochState} {honest : Finset Author} {logs : Author → List Entry}
  {a a' : Author} {data data' : SafetyData} {block block' : Block} {vote vote' : Vote}

section

variable (h : VoteLogs C state honest logs) (ha : a ∈ honest)

include h ha

section

variable (hx : .vote data block vote ∈ logs a) (hy : .vote data' block' vote' ∈ logs a)

include hx hy

theorem below_of_round_lt (hlt : block.round < block'.round) :
    (Entry.vote data block vote).Below data' := by
  rcases h.ordered a ha _ hx _ hy with heq | hbelow | hbelow
  · cases heq
    omega
  · exact hbelow
  · have hgt := (h.facts a ha _ _ _ hx).round_gt
    have hle : block'.round ≤ data.lastVotedRound := hbelow.1
    omega

theorem eq_of_round_eq (hround : block.round = block'.round) : block = block' ∧ vote = vote' := by
  rcases h.ordered a ha _ hx _ hy with heq | hbelow | hbelow
  · cases heq
    exact ⟨rfl, rfl⟩
  · have hgt := (h.facts a ha _ _ _ hy).round_gt
    have hle : block.round ≤ data'.lastVotedRound := hbelow.1
    omega
  · have hgt := (h.facts a ha _ _ _ hx).round_gt
    have hle : block'.round ≤ data.lastVotedRound := hbelow.1
    omega

end

theorem block_eq_of_ledgerInfo_eq (ha' : a' ∈ honest) (hx : .vote data block vote ∈ logs a)
    (hy : .vote data' block' vote' ∈ logs a') (hli : vote.ledgerInfo = vote'.ledgerInfo) :
    block.blockData = block'.blockData := by
  have hfacts := h.facts a ha _ _ _ hx
  have hfacts' := h.facts a' ha' _ _ _ hy
  have hhash : vote.voteData.hash C = vote'.voteData.hash C := by
    rw [← hfacts.hash_eq, ← hfacts'.hash_eq, hli]
  have hdata : vote.voteData = vote'.voteData := voteData.inj (h.collisionFree hhash)
  have hid : block.id C = block'.id C := by
    rw [← hfacts.verified.proposed_id, ← hfacts'.verified.proposed_id, hdata]
  exact blockData.inj (h.collisionFree hid)

end

variable (h : VoteLogs C state honest logs)

include h

theorem exists_certified {li} (hli : QuorumVoted state.verifier honest logs li) :
    ∃ a ∈ honest, ∃ data block vote, .vote data block vote ∈ logs a ∧ vote.ledgerInfo = li ∧
      (state.verifier.quorumSystem honest h.faulty).Certified (VotedFor logs) block.blockData := by
  obtain ⟨Q, hQ, hvoted⟩ := hli
  have hquorum := hQ.isQuorum h.wellFormed h.faulty
  obtain ⟨a, ha, hmem⟩ := hquorum.exists_honest_mem
  obtain ⟨data, block, vote, hx, hvote⟩ := hvoted a hmem ha
  refine ⟨a, ha, data, block, vote, hx, hvote, Q, hquorum, fun a' hmem' ha' => ?_⟩
  obtain ⟨data', block', vote', hx', hvote'⟩ := hvoted a' hmem' ha'
  exact ⟨data', block', vote', hx',
    h.block_eq_of_ledgerInfo_eq ha' ha hx' hx (hvote'.trans hvote.symm)⟩

theorem exists_parent (ha : a ∈ honest) (hx : .vote data block vote ∈ logs a)
    (hround : block.quorumCert.certifiedBlock.round ≠ 0) :
    ∃ p, (state.verifier.quorumSystem honest h.faulty).Certified (VotedFor logs) p ∧
      p.hash C = block.parentId ∧ p.round = block.quorumCert.certifiedBlock.round ∧
      p.quorumCert.certifiedBlock = block.quorumCert.parentBlock := by
  obtain ⟨a', ha', _, p, vote', hx', hli, hcertified⟩ :=
    h.exists_certified (h.justified a ha _ _ _ hx hround)
  have hfacts := h.facts a' ha' _ _ _ hx'
  have hhash : vote'.voteData.hash C = block.quorumCert.voteData.hash C := by
    rw [← hfacts.hash_eq, hli, (h.facts a ha _ _ _ hx).verified.qc.hash_eq]
  have hdata : vote'.voteData = block.quorumCert.voteData :=
    voteData.inj (h.collisionFree hhash)
  refine ⟨p.blockData, hcertified, ?_, ?_, ?_⟩
  · exact hfacts.verified.proposed_id.symm.trans (congrArg (·.proposed.id) hdata)
  · exact hfacts.verified.proposed_round.symm.trans (congrArg (·.proposed.round) hdata)
  · exact hfacts.verified.parent_eq.symm.trans (congrArg (·.parent) hdata)

def voting : ChainedVoting Author BlockData where
  toQuorumSystem := state.verifier.quorumSystem honest h.faulty
  round := BlockData.round
  qcRound b := b.quorumCert.certifiedBlock.round
  parentQcRound b := b.quorumCert.parentBlock.round
  parent p b := p.hash C = b.parentId
  voted := VotedFor logs
  qcRound_lt := by
    rintro a ha _ ⟨data, block, vote, hx, rfl⟩
    exact (h.facts a ha _ _ _ hx).verified.round_lt
  one_vote := by
    rintro a ha _ _ ⟨data, block, vote, hx, rfl⟩ ⟨_, _, _, hx', rfl⟩ hround
    rw [(h.eq_of_round_eq ha hx hx' hround).1]
  justified := by
    rintro a ha _ ⟨_, _, _, hx, rfl⟩ hpos
    obtain ⟨p, hcertified, hparent, hround, -⟩ :=
      h.exists_parent ha hx (Nat.pos_iff_ne_zero.mp hpos)
    exact ⟨p, hcertified, hparent, hround⟩

theorem isAncestor_of_ancestor {b c} (hanc : h.voting.Ancestor b c) :
    IsAncestor C (b.hash C) (c.hash C) := by
  induction hanc with
  | refl => exact .refl
  | tail _ hparent ih => exact ih.tail ⟨_, rfl, Eq.symm hparent⟩

end VoteLogs

/-! ## The logs of a network -/

/-- Honest validators have sent the votes that carry their signatures on the ledger info. -/
def Unforged (sent : Sent) (li : LedgerInfoWithSignatures) : Prop :=
  ∀ author ∈ honest, ∀ signature, li.signatures[author]? = some signature →
    verifier.Signed C (.ledgerInfo li.ledgerInfo) author signature →
      ∃ vote, (author, .vote vote) ∈ sent ∧ vote.ledgerInfo = li.ledgerInfo

theorem Unforged.mono {C verifier honest sent li} (h : Unforged C verifier honest sent li)
    (entry : Author × Output) : Unforged C verifier honest (entry :: sent) li := by
  intro author hauthor signature hget hsigned
  obtain ⟨vote, hmem, hli⟩ := h author hauthor signature hget hsigned
  exact ⟨vote, List.mem_cons_of_mem _ hmem, hli⟩

/-- The ledger info commits a block and carries the signatures of a quorum, none of them forged. -/
structure QuorumCommits (sent : Sent) (li : LedgerInfoWithSignatures) : Prop where
  signed : li.QuorumSigned C verifier
  unforged : Unforged C verifier honest sent li
  commits : li.ledgerInfo.commitInfo ≠ .empty

structure EarlierVote (C : Crypto) (epoch : Nat) (vote : Vote) : Prop where
  epoch_lt : vote.epoch < epoch
  hash_eq : vote.ledgerInfo.consensusDataHash = vote.voteData.hash C
  commit_lt : vote.ledgerInfo.epoch < epoch

namespace NetworkInvariant

variable {C : Crypto} {honest : Finset Author} {state : EpochState} {conduct : Conduct state}
  {past : Sent} {logs : Author → List Entry} {net : Network}

section

variable (h : NetworkInvariant C honest conduct past logs net)

include h

theorem vote_signed {a data block vote} (ha : a ∈ honest) (hx : .vote data block vote ∈ logs a) :
    VoteFacts C state data block vote ∧ ∃ rules op, conduct.Allows net.sent op ∧
      (∀ s, rules.epochState = some s → s = state) ∧ op.Votes C rules data block vote := by
  obtain ⟨rules, op, hallows, hin, hdata, hsigned⟩ := h.signed a ha _ hx
  refine ⟨?_, rules, op, hallows, hin.memory, hsigned⟩
  have hvotes : op.Votes C rules data block vote := hsigned
  cases op with
  | constructAndSignVote =>
    obtain ⟨s, hs, hverified⟩ := hvotes.2.verified
    obtain rfl := hin.memory s hs
    exact ⟨hverified, hin.entered s data hs hdata,
      (constructLedgerInfo_spec hvotes.2.ledgerInfo_eq).1, hvotes.2.round_gt⟩
  | constructAndSignVoteTwoChain =>
    obtain ⟨s, hs, hverified⟩ := hvotes.2.verified
    obtain rfl := hin.memory s hs
    exact ⟨hverified, hin.entered s data hs hdata,
      (constructLedgerInfo2chain_spec hvotes.2.ledgerInfo_eq).1, hvotes.2.round_gt⟩
  | _ => exact hvotes.elim

theorem quorumVoted {li} (hsigned : li.QuorumSigned C state.verifier)
    (hunforged : Unforged C state.verifier honest net.sent li)
    (hpast : ∀ author ∈ honest, ∀ vote, (author, .vote vote) ∈ past →
      vote.ledgerInfo ≠ li.ledgerInfo) : QuorumVoted state.verifier honest logs li.ledgerInfo := by
  refine ⟨_, hsigned.quorum, fun author hmem ha => ?_⟩
  obtain ⟨signature, hget⟩ := mem_authorsOf_iff.mp hmem
  obtain ⟨vote, hsent, hli⟩ := hunforged author ha signature hget (hsigned.signed _ _ hget)
  rcases h.votes author ha vote hsent with hold | ⟨data, block, hx⟩
  · exact absurd hli (hpast author ha vote hold)
  · exact ⟨data, block, vote, hx, hli⟩

theorem voteLogs (htrusted : Trusted C state honest)
    (hpast : ∀ author ∈ honest, ∀ vote, (author, .vote vote) ∈ past →
      EarlierVote C state.epoch vote)
    (hunforged : ∀ sent op rules data block vote, conduct.Allows sent op →
      op.Votes C rules data block vote →
        Unforged C state.verifier honest sent block.quorumCert.signedLedgerInfo) :
    VoteLogs C state honest logs where
  toTrusted := htrusted
  facts := fun a ha data block vote hx => (h.vote_signed ha hx).1
  ordered := by
    intro a ha x hx y hy
    obtain ⟨d, hd, -, -⟩ := (h.node a ha).log.below x hx
    have hlog := (h.node a ha).log
    rw [hd] at hlog
    exact hlog.ordered_cases hx hy
  justified := by
    intro a ha _ block vote hx hround
    obtain ⟨hfacts, _, _, hallows, -, hvotes⟩ := h.vote_signed ha hx
    have hverified := hfacts.verified
    refine h.quorumVoted (hverified.qc.signed hround)
      (hunforged _ _ _ _ _ _ hallows hvotes) fun author hauthor v hv hli => ?_
    -- a vote of an earlier epoch is not for a block of this one
    obtain ⟨_, hhash, -⟩ := hpast author hauthor v hv
    have hdata : v.voteData = block.quorumCert.voteData := by
      refine voteData.inj (htrusted.collisionFree ?_)
      change v.voteData.hash C = block.quorumCert.voteData.hash C
      rw [← hhash, hli]
      exact hverified.qc.hash_eq
    have hepoch : v.epoch = state.epoch := by
      rw [Vote.epoch, hdata, ← hfacts.epoch_eq, ← hverified.epoch_eq]
      exact hverified.parent_epoch
    omega

end

end NetworkInvariant

end Loki.Diem
