import Loki.Fisco.Checkpoint

/-!
# A node of a deployment

The invariants of the locks, of the executions and of the checkpoints hold together along the run of
an honest node, and nothing that a node has sent is ever unsaid.
-/

namespace Loki.Fisco

open List PBFTEngine PBFTCache List.Subset Option PBFTConfig Moves

variable {D : Deployment} {V : Nat → Nat → HashType → Prop} {s t : PBFTEngine}

/-! ### Precommits -/

/-- The pre-prepare of a cache has a proposal, and a commit has been sent for its precommit. -/
structure PrecommitSent (sent : List Message) (i : Nat) (pre commit : Option PBFTMessage) :
    Prop where
  proposal : ∀ m, pre = some m → m.consensusProposal.isSome
  vote : ∀ m, commit = some m → ∃ vote, .pbft vote ∈ sent ∧ vote.packetType = .commitPacket ∧
    vote.index = i ∧ vote.hash = m.hash

theorem PrecommitSent.mono {sent sent' : List Message} {i pre commit}
    (h : PrecommitSent sent i pre commit) (hsent : sent ⊆ sent') :
    PrecommitSent sent' i pre commit where
  proposal := h.proposal
  vote m hm := by
    obtain ⟨vote, hvote, hrest⟩ := h.vote m hm
    exact ⟨vote, hsent hvote, hrest⟩

def Precommits (s : PBFTEngine) : Prop :=
  ∀ i, PrecommitSent s.sent i (s.core.cacheAt i).prePrepare (s.core.cacheAt i).precommit

namespace Precommits

theorem of_caches {p : Nat → Prop} (h : Precommits s) (hsent : s.sent ⊆ t.sent)
    (hcaches : ∀ i, SameMessages (p i) (s.core.cacheAt i) (t.core.cacheAt i)) :
    Precommits t := by
  intro i
  rcases hcaches i with ⟨hpre, hcommit⟩ | ⟨-, hpre, hcommit⟩
  · rw [hpre, hcommit]
    exact (h i).mono hsent
  · rw [hpre, hcommit]
    exact ⟨nofun, nofun⟩

theorem prepared (h : Precommits s) {msg proposal}
    (hproposal : msg.consensusProposal = some proposal) : Precommits (s.prepared msg proposal) := by
  intro i
  have hold : PrecommitSent (s.prepared msg proposal).sent i _ _ :=
    (h i).mono (subset_cons_self _ _)
  rw [cacheAt_prepared]
  split
  case isFalse => exact hold
  next heq =>
    subst heq
    rw [(s.preparedCache_lock msg proposal).1]
    rcases s.preparedCache_prePrepare msg proposal with hnew | ⟨hkept, -⟩
    · rw [hnew]
      exact ⟨fun m hm => by simp [← some.inj hm, hproposal], hold.vote⟩
    · rw [hkept]
      exact hold

theorem preCommitted (h : Precommits s) (hlock : CommitLock s) (hheld : HeldInv s.core)
    {index cache prePrepare} (hget : s.caches[index]? = some cache)
    (hready : cache.readyToPreCommit s.config = some prePrepare) :
    Precommits (s.preCommitted index cache prePrepare) := by
  obtain ⟨hpre, -⟩ := readyToPreCommit_eq_some hready
  have hindex := hheld.prePrepare_index hget hpre
  obtain ⟨proposal, hproposal⟩ :=
    isSome_iff_exists.mp ((h index).proposal prePrepare (cacheAt_eq hget ▸ hpre))
  have hsome : (commitReq s.config (cache.precommitOf s.config prePrepare)).isSome := by
    simp [commitReq, precommitOf, hproposal]
  obtain ⟨vote, hvote⟩ := isSome_iff_exists.mp hsome
  have hstate : s.preCommitted index cache prePrepare =
      (s.send (.pbft vote)).setCache index (cache.preCommitted s.config prePrepare) := by
    simp [PBFTEngine.preCommitted, hvote]
  have hnew := hlock.commitReq_eq hget hpre hvote
  intro i
  rw [hstate, cacheAt_setCache]
  split
  case isFalse => exact (h i).mono (subset_cons_self _ _)
  next heq =>
    subst heq
    rw [preCommitted_prePrepare, preCommitted_precommit]
    refine ⟨fun m hm => ?_, fun m hm => ⟨vote, mem_cons_self, ?_, hnew.1.trans hindex, ?_⟩⟩
    · simp [← some.inj hm, precommitOf, hproposal]
    · obtain ⟨_, -, rfl⟩ := map_eq_some_iff.mp hvote
      rfl
    · exact some.inj hm ▸ hnew.2

theorem of_isInit (h : s.IsInit) : Precommits s := by
  intro i
  rw [h.cacheAt]
  exact ⟨nofun, nofun⟩

end Precommits

/-- What the lock moves keep. -/
structure Locked (s : PBFTEngine) : Prop where
  cache : CacheInv s.core
  commit : CommitLock s
  precommits : Precommits s

theorem Locked.lockMove (h : Locked s) (hmove : LockMove consistentProposal s t) : Locked t where
  cache := h.cache.lockMove hmove
  commit := h.commit.lockMove h.cache hmove
  precommits := by
    have hsent := hmove.sent_subset.2
    cases hmove with
    | quiet hquiet => exact h.precommits.of_caches hsent fun i => (hquiet.cache i).messages
    | prepare _ _ hproposal => exact h.precommits.prepared hproposal
    | preCommit _ _ _ hget hready =>
      exact h.precommits.preCommitted h.commit h.cache.toHeldInv hget hready

theorem Locked.lockMoves (h : Locked s) (hmoves : LockMoves consistentProposal s t) : Locked t := by
  induction hmoves with
  | refl => exact h
  | tail _ hmove ih => exact ih.lockMove hmove

/-! ### One node of the deployment -/

structure NodeInv (D : Deployment) (V : Nat → Nat → HashType → Prop) (held : Option HashType)
    (s : PBFTEngine) : Prop where
  nodes : s.config.consensusNodeList = D.nodes
  lock : Locked s
  exec : ExecInv AnyData V s
  flight : Flight held s
  chain : Chain D V s

abbrev votingRules (V : Nat → Nat → HashType → Prop) : Rules := commitsSent AnyData V

theorem Move.consistent (h : Move (votingRules V) s t) : LockMove consistentProposal s t :=
  h.lockMove.mono fun _ _ hhandles proposal hproposal =>
    ⟨(hhandles proposal hproposal).1, (hhandles proposal hproposal).2.1⟩

namespace NodeInv

variable {held : Option HashType}

section

variable (h : NodeInv D V held s) (hV : Others D V s)

include h hV

theorem pending_hash_eq {proposal proposal'} (hp : s.Pending proposal) (hp' : s.Pending proposal')
    (hindex : proposal.index = proposal'.index) : proposal.hash = proposal'.hash := by
  obtain ⟨-, S, hS, hvoted⟩ := h.exec.pending proposal hp
  obtain ⟨-, _, hS', hvoted'⟩ := h.exec.pending proposal' hp'
  rw [← hindex] at hvoted'
  exact voted_hash_eq hV h.nodes h.lock.commit hS hS' hvoted hvoted'

theorem move (hmove : Move (votingRules V) s t) : NodeInv D V held t where
  nodes := hmove.sameChain.consensusNodeList.trans h.nodes
  lock := h.lock.lockMove hmove.consistent
  exec := h.exec.move hmove
  flight := h.flight.move h.lock.cache.ordered (fun _ _ => h.pending_hash_eq hV) hmove
  chain := h.chain.move h.lock.cache.ordered hmove

theorem moves (hmoves : Moves (votingRules V) s t) : NodeInv D V held t ∧ Others D V t := by
  induction hmoves with
  | refl => exact ⟨h, hV⟩
  | tail _ hmove ih =>
    exact ⟨ih.1.move ih.2 hmove, ih.2.mono ⟨hmove.sameChain.consensusNodeList,
      hmove.sameChain.nodeID, hmove.lockMove.sent_subset.2⟩⟩

end

theorem onExecuteFinished_config (position : Nat) (executed : Option PBFTProposal) :
    (s.onExecuteFinished position executed).config = s.config := by
  unfold onExecuteFinished
  split
  · rfl
  dsimp only
  split <;> rfl

theorem onExecuteFinished (h : NodeInv D V none s) {position executed}
    (hexec : ∀ entry ∈ s.applying[position]?, ∃ block, executed = some block ∧
      block.index = entry.2.index ∧ block.hash = D.exec entry.1.hash entry.2.hash) :
    NodeInv D V none (s.onExecuteFinished position executed) := by
  have hmoves := onExecuteFinished_lockMoves (s := s) (R := consistentProposal) position executed
  constructor
  case nodes =>
    rw [onExecuteFinished_config]
    exact h.nodes
  case lock => exact h.lock.lockMoves hmoves
  case exec => exact h.exec.onExecuteFinished position executed
  case flight => exact h.flight.onExecuteFinished position executed
  case chain => exact h.chain.onExecuteFinished hexec

theorem recordExecuted (h : NodeInv D V none s) {proposal executed finished}
    (hfinished : s.finished = (proposal, some executed) :: finished) :
    NodeInv D V (some proposal.hash) ({ s with finished := finished }.recordExecuted executed) := by
  have hentry : (proposal, some executed) ∈ s.finished := by simp [hfinished]
  obtain ⟨hcurrent, hexecuting, -⟩ :=
    h.flight.current proposal (by simp [inFlight, hfinished])
  obtain ⟨happlying, hrest⟩ : s.applying = [] ∧ finished = [] := by
    have hsingle := h.flight.single
    simp only [inFlight, hfinished, length_append, length_map, length_cons] at hsingle
    exact ⟨length_eq_zero_iff.mp (by omega), length_eq_zero_iff.mp (by omega)⟩
  subst hrest
  obtain ⟨parent, _, hsome, hindex, hhash, hparent⟩ := h.chain.finished _ hentry
  obtain rfl := some.inj hsome
  obtain ⟨-, S, hS, hvoted⟩ := h.exec.pending proposal (.inr (.inr ⟨_, hentry⟩))
  have hexpected : s.config.expectedCheckPoint ≤ executed.index + 1 := by
    simp only at hindex
    omega
  have hmoves : LockMoves consistentProposal s
      ({ s with finished := [] }.recordExecuted executed) :=
    LockMoves.after (recordExecuted_lockMoves executed
      hexpected) rfl rfl rfl
  constructor
  case nodes => exact h.nodes
  case lock => exact h.lock.lockMoves hmoves
  case exec =>
    have hnext : ExecInv AnyData V { s with finished := [] } := by
      refine h.exec.keeps (.of_config_eq rfl (refl _) rfl ?_)
      rintro _ (hother | hother | ⟨_, hother⟩)
      · exact .inl hother
      · exact .inr (.inl hother)
      · cases hother
    exact hnext.recordExecuted executed
  case flight =>
    have hnone : ({ s with finished := [] }.recordExecuted executed).inFlight = [] :=
      append_eq_nil_iff.mpr ⟨map_eq_nil_iff.mpr happlying, rfl⟩
    have hlt : s.config.committedProposal.index < proposal.index :=
      hcurrent ▸ h.lock.cache.ordered.1.symm.trans_le h.lock.cache.ordered.2
    refine ⟨by simp [hnone], by simp [hnone], fun hash hhash => ?_⟩
    obtain rfl := some.inj hhash
    exact ⟨proposal.index, hexecuting, hlt⟩
  case chain =>
    have hnext : Chain D V { s with finished := [] } :=
      ⟨h.chain.1, h.chain.2, h.chain.3, h.chain.4, h.chain.5, h.chain.6, h.chain.7, by simp⟩
    refine hnext.recordExecuted ⟨parent, proposal.hash, hhash, ?_, S, hS, ?_⟩ hexpected
    · exact hindex ▸ hparent
    · exact hindex ▸ hvoted

theorem eraseExecutedProposal {hash} (h : NodeInv D V (some hash) s) :
    NodeInv D V none (s.eraseExecutedProposal hash) where
  nodes := h.nodes
  lock := h.lock.lockMove (.quiet (Quiet.eraseExecutedProposal hash))
  exec := h.exec.keeps (.eraseExecutedProposal hash)
  flight := h.flight.eraseExecutedProposal
  chain := ⟨h.chain.1, h.chain.2, h.chain.3, h.chain.4, h.chain.5, h.chain.6, h.chain.7, h.chain.8⟩

section

variable (h : NodeInv D V none s)

include h

theorem onProposalApplied (hV : Others D V s) : NodeInv D V none s.onProposalApplied := by
  unfold PBFTEngine.onProposalApplied
  split
  · exact h
  next proposal executed finished hfinished =>
    obtain ⟨-, block, rfl, -⟩ := h.chain.finished (proposal, executed) (by simp [hfinished])
    have hV' : Others D V ({ s with finished := finished }.recordExecuted block) :=
      hV.mono ⟨rfl, rfl, subset_cons_self _ _⟩
    have hmoves := (h.recordExecuted hfinished).moves hV'
      (checkAndCommitStableCheckPoint_moves.trans
        tryToApplyCommitQueue_moves)
    exact hmoves.1.eraseExecutedProposal

/-- The checkpoint that has been committed is one the node has executed, so that the expected one
stays. -/
theorem resetConfig {ledgerConfig} (hnodes : ledgerConfig.consensusNodeList = D.nodes)
    (hstable : s.HasCheckPoint ledgerConfig.blockNumber ledgerConfig.hash) :
    NodeInv D V none (s.setConfig (s.config.resetConfig ledgerConfig)) := by
  have hnodes' := hnodes.trans h.nodes.symm
  have hlt := (h.chain.announced _ _ hstable).2.1
  obtain ⟨hlist, hnodeID, hexpected, hcommitted⟩ := resetConfig_below hnodes' hlt
  have hmoves := resetConfig_lockMoves (R := consistentProposal) h.lock.cache.ordered ledgerConfig
  constructor
  case nodes => exact hlist.trans h.nodes
  case lock => exact h.lock.lockMoves hmoves
  case exec => exact h.exec.resetConfig hnodes'
  case flight => exact h.flight.of_eq rfl rfl hexpected nofun
  case chain =>
    refine h.chain.setConfig hlist hnodeID hexpected.ge (hcommitted.imp_right fun heq => ?_)
    rw [heq]
    exact hstable

theorem removeConsensusedCache {view consensusedNumber}
    (hnumber : consensusedNumber < s.config.expectedCheckPoint) :
    NodeInv D V none (s.removeConsensusedCache view consensusedNumber) := by
  have hmoves : LockMoves consistentProposal s (s.removeConsensusedCache view consensusedNumber) :=
    removeConsensusedCache_lockMoves h.lock.cache hnumber
  let keep index (cache : PBFTCache) := consensusedNumber < index && !cache.stableCommitted
  constructor
  case nodes => exact h.nodes
  case lock => exact h.lock.lockMoves hmoves
  case exec => exact (h.exec.keeps (.filterCaches keep)).moves (aux rfl)
  case flight => exact h.flight.of_eq rfl rfl rfl fun _ => rfl
  case chain => exact (h.chain.silent (.filterCaches keep)).silent (.of_calm (.of_core_eq rfl))

theorem finalizeConsensus (hV : Others D V s) {ledgerConfig}
    (hnodes : ledgerConfig.consensusNodeList = D.nodes)
    (hstable : s.HasCheckPoint ledgerConfig.blockNumber ledgerConfig.hash) :
    NodeInv D V none (s.finalizeConsensus ledgerConfig false) := by
  have hlt := (h.chain.announced _ _ hstable).2.1
  obtain ⟨hlist, hnodeID, hexpected, -⟩ :=
    resetConfig_below (hnodes.trans h.nodes.symm) hlt
  have hV₀ : Others D V (s.setConfig (s.config.resetConfig ledgerConfig)) :=
    hV.mono ⟨hlist, hnodeID, Subset.refl _⟩
  have happly : Moves (votingRules V) (s.setConfig (s.config.resetConfig ledgerConfig))
      (s.setConfig (s.config.resetConfig ledgerConfig)).tryToApplyCommitQueue.1 :=
    tryToApplyCommitQueue_moves
  simp only [PBFTEngine.finalizeConsensus]
  generalize (s.setConfig (s.config.resetConfig ledgerConfig)).tryToApplyCommitQueue.1 = s₁
    at happly ⊢
  obtain ⟨h₁, hV₁⟩ := (h.resetConfig hnodes hstable).moves hV₀ happly
  have hlt₁ : ledgerConfig.blockNumber < s₁.config.expectedCheckPoint :=
    (hlt.trans_eq hexpected.symm).trans_eq (sameChain happly).expectedCheckPoint.symm
  have hdrop : NodeInv D V none
      (s₁.removeConsensusedCache s₁.config.view ledgerConfig.blockNumber) :=
    h₁.removeConsensusedCache hlt₁
  exact (hdrop.moves (hV₁.mono ⟨rfl, rfl, Subset.refl _⟩)
    (tryToCommitStableCheckPoint_moves.trans resetTimer_moves)).1

theorem onStableCheckPointCommitted (hV : Others D V s) {ledgerConfig}
    (hnodes : ∀ config ∈ ledgerConfig, config.consensusNodeList = D.nodes) :
    NodeInv D V none (s.onStableCheckPointCommitted ledgerConfig) := by
  unfold PBFTEngine.onStableCheckPointCommitted
  split
  · exact h
  next stable committing hcommitting =>
    have hstable := h.chain.committing stable (by simp [hcommitting])
    have hquiet : Quiet s.core { s with committing := committing }.core :=
      Quiet.of_config_eq rfl rfl rfl
    have hkeeps : Keeps s { s with committing := committing } :=
      .of_config_eq rfl (refl _) rfl fun _ hp => hp
    have hnext : NodeInv D V none { s with committing := committing } := by
      refine ⟨h.nodes, h.lock.lockMove (.quiet hquiet), h.exec.keeps hkeeps,
        h.flight.of_eq rfl rfl rfl fun _ => rfl, ?_⟩
      refine ⟨h.chain.1, h.chain.2, h.chain.3, h.chain.4, fun other hother => ?_, h.chain.6,
        h.chain.7, h.chain.8⟩
      exact h.chain.committing other (by simp [hcommitting, hother])
    cases ledgerConfig with
    | none => exact hnext
    | some ledgerConfig =>
      refine hnext.finalizeConsensus (hV.mono ⟨rfl, rfl, refl _⟩) ?_ ?_
      · exact hnodes ledgerConfig rfl
      · exact hstable

end

end NodeInv

/-- Executions succeed and depend on the parent and the proposal, the node list stays, and nothing
comes from the block sync or the log sync. -/
def Input.InDeployment (D : Deployment) (s : PBFTEngine) : Input → Prop
  | .executed position result => ∀ entry ∈ s.applying[position]?, ∃ block ∈ result,
      block.index = entry.2.index ∧ block.hash = D.exec entry.1.hash entry.2.hash
  | .committed ledgerConfig => ∀ config ∈ ledgerConfig, config.consensusNodeList = D.nodes
  | .newBlock _ | .precommitResponse .. | .committedResponse .. | .loaded .. => False
  | _ => True

/-- The indices that an input applies. -/
def PBFTEngine.applies (s : PBFTEngine) : Input → List Nat
  | .applied => (s.finished.head?.bind (·.2)).toList.map (·.index)
  | _ => []

namespace NodeInv

theorem step (h : NodeInv D V none s) (hV : Others D V s) {input}
    (hmeets : input.Meets (votingRules V) s) (hin : input.InDeployment D s) :
    NodeInv D V none (s.step input) := by
  cases input with
  | executed =>
    refine h.onExecuteFinished fun entry hentry => ?_
    obtain ⟨block, hblock, hrest⟩ := hin entry hentry
    exact ⟨block, hblock, hrest⟩
  | applied => exact h.onProposalApplied hV
  | committed => exact h.onStableCheckPointCommitted hV hin
  | newBlock | precommitResponse | committedResponse | loaded => cases hin
  | _ => exact (h.moves hV (step_moves hmeets trivial)).1

/-- What has been executed is the proposal of the expected checkpoint, which is not moved back. -/
theorem step_lockMoves (h : NodeInv D V none s) {input} (hmeets : input.Meets consistentProposal s)
    (hin : input.InDeployment D s) : LockMoves consistentProposal s (s.step input) := by
  refine PBFTEngine.step_lockMoves h.lock.cache hmeets ?_
  cases input with
  | applied =>
    rintro ⟨proposal, executed⟩ hresult
    have hmem := mem_of_mem_head? hresult
    obtain ⟨-, block, rfl, hindex, -⟩ := h.chain.finished _ hmem
    have hflight : proposal ∈ s.inFlight := mem_append_right _ (mem_map_of_mem hmem)
    have hcurrent := (h.flight.current proposal hflight).1
    simp only [map_some, getD_some] at hindex ⊢
    omega
  | newBlock => cases hin
  | _ => trivial

theorem step_applies (h : NodeInv D V none s) {input} (hmeets : input.Meets (votingRules V) s)
    (hin : input.InDeployment D s) :
    s.applies input = [] ∧
        (s.step input).config.expectedCheckPoint = s.config.expectedCheckPoint ∨
      s.applies input = [s.config.expectedCheckPoint] ∧
        (s.step input).config.expectedCheckPoint = s.config.expectedCheckPoint + 1 := by
  cases input with
  | executed position result =>
    exact .inl ⟨rfl, by rw [PBFTEngine.step, onExecuteFinished_config]⟩
  | applied =>
    simp only [PBFTEngine.step, PBFTEngine.onProposalApplied]
    split
    next hfinished => exact .inl ⟨by simp [applies, hfinished], rfl⟩
    next proposal executed finished hfinished =>
      obtain ⟨-, block, rfl, hindex, -⟩ :=
        h.chain.finished (proposal, executed) (by simp [hfinished])
      have hcurrent := (h.flight.current proposal (by simp [inFlight, hfinished])).1
      refine .inr ⟨by simp [applies, hfinished, hindex, hcurrent], ?_⟩
      have hle : s.config.committedProposal.index + 1 ≤ s.config.expectedCheckPoint :=
        h.lock.cache.ordered.1.symm.trans_le h.lock.cache.ordered.2
      have hsame := sameChain ((checkAndCommitStableCheckPoint_moves (R := consistentProposal)
        (s := { s with finished := finished }.recordExecuted block)).trans
          tryToApplyCommitQueue_moves)
      refine hsame.expectedCheckPoint.trans ?_
      rw [← hcurrent, ← hindex] at hle ⊢
      exact max_eq_right (hle.trans (Nat.le_succ _))
  | committed ledgerConfig =>
    refine .inl ⟨rfl, ?_⟩
    simp only [PBFTEngine.step, PBFTEngine.onStableCheckPointCommitted]
    split
    · rfl
    next stable _ hcommitting =>
      have hlt := (h.chain.announced _ _ (h.chain.committing stable (by simp [hcommitting]))).2.1
      cases ledgerConfig with
      | none => rfl
      | some ledgerConfig =>
        -- the block is one that the node has applied
        have hbelow := (@resetConfig_below s.config
          { ledgerConfig with blockNumber := stable.index, hash := stable.hash }
          ((hin ledgerConfig rfl).trans h.nodes.symm) hlt).2.2.1
        refine (sameChain ((tryToCommitStableCheckPoint_moves (R := consistentProposal)).trans
          resetTimer_moves)).expectedCheckPoint.trans ?_
        exact (sameChain (tryToApplyCommitQueue_moves
          (R := consistentProposal))).expectedCheckPoint.trans hbelow
  | newBlock | precommitResponse | committedResponse | loaded => cases hin
  | _ => exact .inl ⟨rfl, (sameChain (step_moves hmeets trivial)).expectedCheckPoint⟩

theorem mono {held V'} (h : NodeInv D V held s)
    (hV : ∀ i index hash, V i index hash → V' i index hash) : NodeInv D V' held s := by
  have hvoted : ∀ i index hash, s.Voted V i index hash → s.Voted V' i index hash :=
    fun i index hash => Or.imp_left (hV i index hash)
  refine ⟨h.nodes, h.lock, ⟨h.exec.held, fun i => ?_, fun proposal hp => ?_⟩, h.flight,
    ⟨fun index hash hcheck => ?_, h.chain.2, h.chain.3, h.chain.4, h.chain.5, h.chain.6,
      h.chain.7, h.chain.8⟩⟩
  · exact (h.exec.caches i).mono hvoted
  · obtain ⟨hdata, S, hS, hquorum⟩ := h.exec.pending proposal hp
    exact ⟨hdata, S, hS, fun i hi => hvoted _ _ _ (hquorum i hi)⟩
  · obtain ⟨hnumber, hlt, parent, proposalHash, hhash, hparent, S, hS, hquorum⟩ :=
      h.chain.announced index hash hcheck
    exact ⟨hnumber, hlt, parent, proposalHash, hhash, hparent, S, hS,
      fun i hi => hvoted _ _ _ (hquorum i hi)⟩

theorem start {i} (hi : i ∈ D.honest) : NodeInv D V none (D.start i) := by
  have hcommitted := D.committed i hi
  have hnodes := D.nodeList i hi
  have hinit := D.isInit i hi
  refine ⟨hnodes, ⟨.of_isInit hinit, .of_isInit hinit, .of_isInit hinit⟩, .of_isInit hinit, ?_, ?_⟩
  all_goals
    generalize D.start i = s at *
    obtain ⟨_, _, _, _, _, rfl⟩ := hinit
    constructor
  case refine_2.committed => exact .inl hcommitted
  all_goals
    simp [inFlight, HasCheckPoint, SentVote, init, Core.cacheAt, core]

end NodeInv

end Loki.Fisco
