import Loki.Fisco.Engine

/-!
# Moves of a node

What a handler can do to the parts of a node that its votes depend on, as a small number of moves.
Every handler is a sequence of moves, up to the few places where the committed proposal or the
expected checkpoint is set, so that an invariant has to be kept by each move and by those places.

`Rules` says what is assumed of the inputs: which pre-prepares are handled in which view, and which
commit messages are counted.
-/

namespace Loki.Fisco

open List Option PBFTMessage Std.ExtTreeMap Subset

section OrderedMap

variable {V : Type}

variable (m : OrderedMap Nat V)

@[simp] theorem OrderedMap.getElem?_insert (k a : Nat) (v : V) :
    (m.insert k v)[a]? = if k = a then some v else m[a]? := by
  rw [Std.ExtTreeMap.getElem?_insert]
  simp

@[simp] theorem OrderedMap.getElem?_filter (f : Nat → V → Bool) (k : Nat) :
    (m.filter f)[k]? = m[k]?.filter (f k) :=
  getElem?_filter'

@[simp] theorem OrderedMap.getElem?_erase (k a : Nat) :
    (m.erase k)[a]? = if k = a then none else m[a]? := by
  rw [Std.ExtTreeMap.getElem?_erase]
  simp

end OrderedMap

structure Core where
  cryptoSuite : CryptoSuite
  nodeID : NodeID
  consensusNodeList : List ConsensusNode
  view : Nat
  committedProposal : PBFTProposal
  progressedIndex : Nat
  expectedCheckPoint : Nat
  caches : OrderedMap Nat PBFTCache
  committedQueue : List PBFTProposal
  executingProposals : OrderedMap HashType Nat
  stableCheckPointQueue : List PBFTProposal
  applying : List (PBFTProposal × PBFTProposal)
  finished : List (PBFTProposal × Option PBFTProposal)
  committing : List PBFTProposal
  stored : List PBFTProposal
  sent : List Message

structure Rules where
  handles : Nat → PBFTMessage → Prop
  counts : PBFTMessage → Prop

def Message.IsVote : Message → Prop
  | .pbft msg =>
    msg.packetType = .preparePacket ∨ msg.packetType = .commitPacket ∨
      msg.packetType = .checkPoint
  | _ => False

namespace PBFTEngine

variable (s : PBFTEngine)

def core : Core where
  cryptoSuite := s.config.cryptoSuite
  nodeID := s.config.nodeID
  consensusNodeList := s.config.consensusNodeList
  view := s.config.view
  committedProposal := s.config.committedProposal
  progressedIndex := s.config.progressedIndex
  expectedCheckPoint := s.config.expectedCheckPoint
  caches := s.caches
  committedQueue := s.committedQueue
  executingProposals := s.executingProposals
  stableCheckPointQueue := s.stableCheckPointQueue
  applying := s.applying
  finished := s.finished
  committing := s.committing
  stored := s.stored
  sent := s.sent

def prepared (msg : PBFTMessage) (proposal : PBFTProposal) : PBFTEngine :=
  let prepareMsg := s.prepareReq msg proposal
  ((s.addPrePrepareCache msg).addPrepareCache prepareMsg).send (.pbft prepareMsg)

def Decided (proposal : PBFTProposal) : Prop :=
  ∃ (index : Nat) (cache : PBFTCache) (precommit : PBFTMessage),
    s.caches[index]? = some cache ∧ cache.precommit = some precommit ∧
    precommit.consensusProposal = some proposal ∧ precommit.view = s.config.view ∧
    cache.collectEnoughCommitReq s.config = true

def Executed (proposal : PBFTProposal) : Prop :=
  ∃ (index : Nat) (cache : PBFTCache) (checkpoint : PBFTProposal),
    s.caches[index]? = some cache ∧ cache.checkpointProposal = some checkpoint ∧
    checkpoint.index = proposal.index ∧ checkpoint.hash = proposal.hash

end PBFTEngine

/-- The cache of an index, a new one where there is none. -/
def Core.cacheAt (s : Core) (i : Nat) : PBFTCache := s.caches[i]?.getD { index := i }

def PBFTCache.Closed (c : PBFTCache) : Prop := c.checkpointProposal.isSome ∨ c.stableCommitted

/-- The messages and the checkpoint of a cache are kept.  Its commits may be those of a new view. -/
structure KeptCache (config : PBFTConfig) (c c' : PBFTCache) : Prop where
  index : c'.index = c.index
  prePrepare : c'.prePrepare = c.prePrepare
  precommit : c'.precommit = c.precommit
  commits : c'.commitCacheList = c.commitCacheList ∨ ∃ view,
    c'.commitCacheList = c.commitCacheList.resetCacheAfterViewChange config view
  checkpoint : c'.checkpointProposal.map (fun p => (p.index, p.hash)) =
    c.checkpointProposal.map fun p => (p.index, p.hash)
  closed : c'.Closed → c.Closed

theorem KeptCache.refl (config : PBFTConfig) (c : PBFTCache) : KeptCache config c c :=
  ⟨rfl, rfl, rfl, .inl rfl, rfl, id⟩

structure SameChain (s t : Core) : Prop where
  cryptoSuite : t.cryptoSuite = s.cryptoSuite
  nodeID : t.nodeID = s.nodeID
  consensusNodeList : t.consensusNodeList = s.consensusNodeList
  committedProposal : t.committedProposal = s.committedProposal
  progressedIndex : t.progressedIndex = s.progressedIndex
  expectedCheckPoint : t.expectedCheckPoint = s.expectedCheckPoint
  finished : t.finished = s.finished

namespace SameChain

theorem refl (s : Core) : SameChain s s := ⟨rfl, rfl, rfl, rfl, rfl, rfl, rfl⟩

theorem trans {s t u : Core} (h : SameChain s t) (h' : SameChain t u) : SameChain s u where
  cryptoSuite := h'.cryptoSuite.trans h.cryptoSuite
  nodeID := h'.nodeID.trans h.nodeID
  consensusNodeList := h'.consensusNodeList.trans h.consensusNodeList
  committedProposal := h'.committedProposal.trans h.committedProposal
  progressedIndex := h'.progressedIndex.trans h.progressedIndex
  expectedCheckPoint := h'.expectedCheckPoint.trans h.expectedCheckPoint
  finished := h'.finished.trans h.finished

end SameChain

/-- No vote is sent or counted, and nothing new is to be executed or stored. -/
structure Calm (s t : PBFTEngine) : Prop extends SameChain s.core t.core where
  view : s.config.view ≤ t.config.view
  sent : s.sent ⊆ t.sent
  votes : ∀ m ∈ t.sent, m.IsVote → m ∈ s.sent
  caches : ∀ i, KeptCache s.config (s.core.cacheAt i) (t.core.cacheAt i)
  committedQueue : t.committedQueue ⊆ s.committedQueue
  stableQueue : t.stableCheckPointQueue ⊆ s.stableCheckPointQueue
  executingProposals : t.executingProposals = s.executingProposals
  applying : t.applying = s.applying
  committing : t.committing = s.committing
  stored : t.stored = s.stored

open PBFTEngine in
inductive Move (R : Rules) : PBFTEngine → PBFTEngine → Prop
  | calm {s t : PBFTEngine} (h : Calm s t) : Move R s t
  | prepare {s : PBFTEngine} (msg : PBFTMessage) (proposal : PBFTProposal)
      (hproposal : msg.consensusProposal = some proposal) (hR : R.handles s.config.view msg)
      (hcheck : s.checkPrePrepareMsg msg = true) : Move R s (s.prepared msg proposal)
  | commitVote {s : PBFTEngine} (msg : PBFTMessage) (hR : R.counts msg) :
      Move R s (s.addCommitReq msg)
  | resend {s : PBFTEngine} (proposal : PBFTProposal) (h : s.Executed proposal) :
      Move R s (s.send (.pbft (s.checkPointReq proposal)))
  | preCommit {s : PBFTEngine} (index : Nat) (cache : PBFTCache) (prePrepare : PBFTMessage)
      (hget : s.caches[index]? = some cache)
      (hready : cache.readyToPreCommit s.config = some prePrepare) :
      Move R s (s.preCommitted index cache prePrepare)
  | enqueue {s : PBFTEngine} (proposal : PBFTProposal) (h : s.Decided proposal) :
      Move R s { s with committedQueue := s.committedQueue ++ [proposal] }
  | apply {s : PBFTEngine} (lastApplied proposal : PBFTProposal) (queue : List PBFTProposal)
      (hqueue : queue ⊆ s.committedQueue) (hmem : proposal ∈ s.committedQueue)
      (hindex : proposal.index = s.config.expectedCheckPoint)
      (hlast : s.getAppliedCheckPointProposal (s.config.expectedCheckPoint - 1) = some lastApplied)
      (hexec : proposal.hash ∉ s.executingProposals) :
      Move R s { s with
        committedQueue := queue
        executingProposals := s.executingProposals.insert proposal.hash proposal.index
        applying := s.applying ++ [(lastApplied, proposal)] }
  | expire {s : PBFTEngine} : Move R s s.clearExpiredExecutingProposal
  | enqueueStable {s : PBFTEngine} (stable : PBFTProposal) (h : s.Executed stable) :
      Move R s { s with stableCheckPointQueue := s.stableCheckPointQueue ++ [stable] }
  | store {s : PBFTEngine} (stable : PBFTProposal) (queue : List PBFTProposal)
      (hqueue : queue ⊆ s.stableCheckPointQueue) (hmem : stable ∈ s.stableCheckPointQueue)
      (hindex : stable.index = s.config.committedProposal.index + 1) :
      Move R s { s with
        stableCheckPointQueue := queue
        committing := s.committing ++ [stable]
        stored := stable :: s.stored }

abbrev Moves (R : Rules) : PBFTEngine → PBFTEngine → Prop := Relation.ReflTransGen (Move R)

variable {R : Rules} {s t : PBFTEngine}

namespace PBFTEngine

theorem cacheAt_eq {index : Nat} {cache} (h : s.caches[index]? = some cache) :
    s.core.cacheAt index = cache := by
  simp only [Core.cacheAt, core, h, getD_some]

theorem cacheAt_setCache (index : Nat) (c' : PBFTCache) (i : Nat) :
    (s.setCache index c').core.cacheAt i = if index = i then c' else s.core.cacheAt i := by
  simp only [Core.cacheAt, core, setCache, OrderedMap.getElem?_insert]
  split <;> rfl

theorem cacheAt_filter (keep : Nat → PBFTCache → Bool) (i : Nat) :
    { s with caches := s.caches.filter keep }.core.cacheAt i = s.core.cacheAt i ∨
      { s with caches := s.caches.filter keep }.core.cacheAt i = { index := i } ∧
        ∃ c, s.caches[i]? = some c ∧ keep i c = false := by
  simp only [Core.cacheAt, core, OrderedMap.getElem?_filter]
  cases hget : s.caches[i]? with
  | none => exact .inl rfl
  | some c =>
    cases hkeep : keep i c with
    | false =>
      rw [filter_some_neg (by simp [hkeep])]
      exact .inr ⟨rfl, c, rfl, hkeep⟩
    | true =>
      rw [filter_some_pos hkeep]
      exact .inl rfl

theorem IsInit.cacheAt (h : s.IsInit) (i : Nat) : s.core.cacheAt i = { index := i } := by
  obtain ⟨_, _, _, _, _, rfl⟩ := h
  simp [Core.cacheAt, core, init]

end PBFTEngine

open PBFTEngine

namespace Calm

theorem of_core_eq (h : t.core = s.core) : Calm s t where
  toSameChain := h ▸ .refl _
  view := (congrArg Core.view h).ge
  sent m hm := (congrArg (m ∈ Core.sent ·) h).mpr hm
  votes m hm _ := (congrArg (m ∈ Core.sent ·) h).mp hm
  caches _ := h ▸ .refl _ _
  committedQueue p hp := (congrArg (p ∈ Core.committedQueue ·) h).mp hp
  stableQueue p hp := (congrArg (p ∈ Core.stableCheckPointQueue ·) h).mp hp
  executingProposals := congrArg Core.executingProposals h
  applying := congrArg Core.applying h
  committing := congrArg Core.committing h
  stored := congrArg Core.stored h

theorem same (s : PBFTEngine) : Calm s s := of_core_eq rfl

theorem finished_eq (h : Calm s t) : t.finished = s.finished := h.finished

theorem setCache {index : Nat} {c'} (h : KeptCache s.config (s.core.cacheAt index) c') :
    Calm s (s.setCache index c') :=
  { same s with
    caches := by
      intro i
      rw [cacheAt_setCache]
      split
      next heq => exact heq ▸ h
      · exact .refl _ _ }

theorem resetCaches (view : Nat) : Calm s { s with
    caches := s.caches.map fun _ (cache : PBFTCache) => cache.resetCache s.config view } :=
  { same s with
    caches := by
      intro i
      simp only [Core.cacheAt, core, Std.ExtTreeMap.getElem?_map]
      cases s.caches[i]? with
      | none => exact .refl _ _
      | some => exact ⟨rfl, rfl, rfl, .inr ⟨view, rfl⟩, rfl, id⟩ }

theorem stabilize {index : Nat} {cache} (hget : s.caches[index]? = some cache) :
    Calm s (s.setCache index (cache.checkAndCommitStableCheckPoint s.config).1) := by
  apply setCache
  rw [cacheAt_eq hget]
  rcases cache.checkAndCommitStableCheckPoint_cases s.config with heq | ⟨_, _, hcheckpoint, heq⟩
  · rw [heq]
    exact .refl _ _
  · rw [heq]
    exact ⟨rfl, rfl, rfl, .inl rfl, by simp [hcheckpoint], fun _ => .inl (by simp [hcheckpoint])⟩

theorem send {msg : Message} (h : ¬ msg.IsVote) : Calm s (s.send msg) :=
  { same s with
    sent := subset_cons_self _ _
    votes := by
      intro m hm hvote
      rcases mem_cons.mp hm with rfl | hm
      · exact absurd hvote h
      · exact hm }

end Calm

theorem Moves.calm (h : Calm s t) : Moves R s t := .single (.calm h)

theorem Moves.aux (h : t.core = s.core) : Moves R s t := .calm (.of_core_eq h)

theorem Moves.foldl {α f} (hf : ∀ s a, Moves R s (f s a))
    (l : List α) : Moves R s (l.foldl f s) := by
  induction l generalizing s with
  | nil => exact .refl
  | cons a _ ih => exact (hf s a).trans ih

namespace PBFTEngine

/-! ### Queues -/

variable {proposal : PBFTProposal} {config : PBFTConfig} {cache : PBFTCache} {index : Nat}
  {msg : PBFTMessage}

theorem top_mem {queue : List PBFTProposal} (h : top queue = some proposal) : proposal ∈ queue := by
  induction queue generalizing proposal with
  | nil => simp [top] at h
  | cons _ queue ih =>
    simp only [top] at h
    cases hrest : top queue with
    | none =>
      simp only [hrest, some.injEq] at h
      simp [h]
    | some =>
      simp only [hrest] at h
      split at h
      · exact mem_cons_of_mem _ (some.inj h ▸ ih hrest)
      · simp [some.inj h]

theorem pop_subset (queue : List PBFTProposal) : pop queue ⊆ queue := by
  unfold pop
  cases top queue with
  | none => simp
  | some => exact erase_subset

theorem tryToApplyCommitQueue_moves : Moves R s s.tryToApplyCommitQueue.1 := by
  have hdrop : Calm s
      { s with committedQueue := dropApplied s.config.expectedCheckPoint s.committedQueue } :=
    { Calm.same s with committedQueue := filter_subset_self _ }
  refine .head (.calm hdrop) ?_
  simp only [tryToApplyCommitQueue]
  cases htop : top (dropApplied s.config.expectedCheckPoint s.committedQueue) with
  | none => exact .refl
  | some proposal =>
    simp only
    by_cases hindex : proposal.index = s.config.expectedCheckPoint
    case neg => simp [hindex]; exact .refl
    rw [if_neg (not_not.mpr hindex)]
    cases hlast : getAppliedCheckPointProposal _ (s.config.expectedCheckPoint - 1) with
    | none => exact .refl
    | some lastApplied =>
      by_cases hexec : proposal.hash ∈ s.executingProposals
      · simp [hexec]; exact .refl
      simp only [if_neg hexec]
      have happly := Move.apply (R := R)
        (s := { s with
          committedQueue := dropApplied s.config.expectedCheckPoint s.committedQueue })
        lastApplied proposal _ (pop_subset _) (top_mem htop) hindex hlast hexec
      refine .head happly (Moves.aux ?_)
      unfold applyStateMachine notifyToSealNextBlock
      split <;> rfl

theorem updateCommitQueue_moves (proposal) :
    s.updateCommitQueue proposal = s ∨
      Moves R { s with committedQueue := s.committedQueue ++ [proposal] }
        (s.updateCommitQueue proposal) := by
  unfold updateCommitQueue
  split
  · exact .inl rfl
  · right
    refine .trans (Moves.aux ?_) tryToApplyCommitQueue_moves
    rfl

theorem updateCommitQueue_moves_of_decided (h : s.Decided proposal) :
    Moves R s (s.updateCommitQueue proposal) := by
  rcases s.updateCommitQueue_moves proposal with heq | hmoves
  · rw [heq]
  · exact .head (.enqueue proposal h) hmoves

/-! ### Commit messages -/

theorem checkAndCommit_eq_true (h : (cache.checkAndCommit config).2 = true) :
    (cache.checkAndCommit config).1 = { cache with submitted := true } ∧
      ∃ precommit, cache.precommit = some precommit ∧ precommit.view = config.view ∧
        cache.collectEnoughCommitReq config = true := by
  revert h
  unfold PBFTCache.checkAndCommit
  split
  · simp
  · cases hpre : cache.precommit with
    | none => simp
    | some precommit =>
      by_cases hview : precommit.view = config.view
      case neg => simp [hview]
      by_cases hcollect : cache.collectEnoughCommitReq config
      · simp [hview, hcollect]
      · simp [hview, hcollect]

theorem checkAndCommit_eq_false (h : (cache.checkAndCommit config).2 = false) :
    (cache.checkAndCommit config).1 = cache := by
  revert h
  unfold PBFTCache.checkAndCommit
  split
  · simp
  · cases cache.precommit with
    | none => simp
    | some => dsimp only; split <;> [simp; (split <;> simp)]

theorem setCache_same_core (hget : s.caches[index]? = some cache) :
    (s.setCache index cache).core = s.core := by
  have heq : s.caches.insert index cache = s.caches := by
    refine ext_getElem? fun k => ?_
    rw [OrderedMap.getElem?_insert]
    split
    next h => rw [← h, hget]
    · rfl
  simp [setCache, core, heq]

theorem submitAt_moves (hget : s.caches[index]? = some cache) :
    Moves R s (s.submitAt index cache).1 := by
  simp only [submitAt]
  cases hsub : (cache.checkAndCommit s.config).2 with
  | false =>
    rw [checkAndCommit_eq_false hsub]
    exact Moves.aux (setCache_same_core hget)
  | true =>
    obtain ⟨heq, precommit, hpre, hview, hcollect⟩ := checkAndCommit_eq_true hsub
    rw [heq, if_pos rfl]
    have hsubmit : Calm s (s.setCache index { cache with submitted := true }) := by
      apply Calm.setCache
      rw [cacheAt_eq hget]
      exact ⟨rfl, rfl, rfl, .inl rfl, rfl, id⟩
    refine .head (.calm hsubmit) ?_
    unfold commitAt
    simp only [hpre, bind_some]
    cases hproposal : precommit.consensusProposal with
    | none => exact .refl
    | some =>
      apply updateCommitQueue_moves_of_decided
      refine ⟨index, { cache with submitted := true }, precommit, ?_, hpre, hproposal, hview,
        hcollect⟩
      simp [setCache, hpre]

section

variable (s : PBFTEngine) (index : Nat)

theorem preCommitted_caches (cache)
    (prePrepare : PBFTMessage) : (s.preCommitted index cache prePrepare).caches =
      s.caches.insert index (cache.preCommitted s.config prePrepare) := by
  unfold preCommitted
  split <;> rfl

theorem preCommitted_config (cache)
    (prePrepare : PBFTMessage) : (s.preCommitted index cache prePrepare).config = s.config := by
  unfold preCommitted
  split <;> rfl

theorem preCommitAt_moves : Moves R s (s.preCommitAt index) := by
  unfold preCommitAt
  cases hget : s.caches[index]? with
  | none => exact .refl
  | some cache =>
    cases hready : cache.readyToPreCommit s.config with
    | none => simp only [hready]; exact .refl
    | some prePrepare =>
      simp only [hready]
      refine .head (.preCommit index cache prePrepare hget hready) (submitAt_moves ?_)
      simp [preCommitted_caches]

end

theorem checkAndPreCommit_moves : Moves R s s.checkAndPreCommit := Moves.foldl preCommitAt_moves _

theorem commitCacheAt_moves (s : PBFTEngine) (index : Nat) : Moves R s (s.commitCacheAt index) := by
  unfold commitCacheAt
  cases hget : s.caches[index]? with
  | none => exact .refl
  | some =>
    refine (submitAt_moves hget).trans (Moves.aux ?_)
    dsimp only
    split <;> rfl

theorem checkAndCommitCaches_moves : Moves R s s.checkAndCommitCaches :=
  Moves.foldl commitCacheAt_moves _

/-! ### Stable checkpoints -/

theorem tryToCommitStableCheckPoint_moves : Moves R s s.tryToCommitStableCheckPoint := by
  unfold tryToCommitStableCheckPoint
  have hdrop : Moves R s { s with
      committedProposalList := s.committedProposalList.filter fun index =>
        !(s.stableCheckPointQueue.filter fun proposal =>
          proposal.index ≤ s.config.committedProposal.index).any (·.index == index)
      stableCheckPointQueue := s.stableCheckPointQueue.filter fun proposal =>
        s.config.committedProposal.index < proposal.index } :=
    .calm { Calm.same s with stableQueue := filter_subset_self _ }
  refine hdrop.trans ?_
  dsimp only
  split
  · exact .refl
  next stable htop =>
    split
    next hindex =>
      exact .head (.store stable _ (pop_subset _) (top_mem htop) hindex) (Moves.aux rfl)
    · exact .refl

theorem Executed.of_caches (h : s.Executed proposal) (hcaches : t.caches = s.caches) :
    t.Executed proposal := by
  obtain ⟨index, cache, checkpoint, hget, hrest⟩ := h
  exact ⟨index, cache, checkpoint, hcaches ▸ hget, hrest⟩

theorem tryToCommitStableCheckPoint_caches : s.tryToCommitStableCheckPoint.caches = s.caches := by
  unfold tryToCommitStableCheckPoint
  dsimp only
  split
  · rfl
  · split <;> rfl

theorem updateStableCheckPointQueue_moves {stable : PBFTProposal} (h : s.Executed stable) :
    Moves R s (s.updateStableCheckPointQueue stable) :=
  .head (.enqueueStable stable h) tryToCommitStableCheckPoint_moves

/-- The stable checkpoints found by the loop go into the queue one after the other. -/
theorem updateStableCheckPointQueue_foldl_moves {found : List PBFTProposal}
    (h : ∀ stable ∈ found, s.Executed stable) :
    Moves R s (found.foldl updateStableCheckPointQueue s) := by
  induction found generalizing s with
  | nil => exact .refl
  | cons stable _ ih =>
    refine (updateStableCheckPointQueue_moves (h stable mem_cons_self)).trans (ih ?_)
    intro other hmem
    exact (h other (mem_cons_of_mem _ hmem)).of_caches tryToCommitStableCheckPoint_caches

theorem Executed.stabilize (h : s.Executed proposal) (hget : s.caches[index]? = some cache) :
    (s.setCache index (cache.checkAndCommitStableCheckPoint s.config).1).Executed proposal := by
  obtain ⟨index', cache', checkpoint, hget', hcheckpoint, hindex, hhash⟩ := h
  by_cases heq : index = index'
  · subst heq
    obtain rfl : cache = cache' := some.inj (hget.symm.trans hget')
    refine ⟨index, (cache.checkAndCommitStableCheckPoint s.config).1, ?_⟩
    rcases cache.checkAndCommitStableCheckPoint_cases s.config with heq | ⟨_, _, hold, heq⟩
    · exact ⟨checkpoint, by simp [setCache], by rw [heq, hcheckpoint], hindex, hhash⟩
    · obtain rfl := some.inj (hold.symm.trans hcheckpoint)
      exact ⟨_, by simp [setCache], congrArg PBFTCache.checkpointProposal heq, hindex, hhash⟩
  · exact ⟨index', cache', checkpoint, by simp [setCache, heq, hget'], hcheckpoint, hindex, hhash⟩

theorem stableAt_moves (found : PBFTEngine × List PBFTProposal)
    (h : ∀ stable ∈ found.2, found.1.Executed stable) (index : Nat) :
    Moves R found.1 (stableAt found index).1 ∧
      ∀ stable ∈ (stableAt found index).2, (stableAt found index).1.Executed stable := by
  unfold stableAt
  cases hget : found.1.caches[index]? with
  | none => exact ⟨.refl, h⟩
  | some cache =>
    refine ⟨.calm (.stabilize hget), ?_⟩
    intro stable hmem
    simp only at hmem ⊢
    split at hmem
    case isFalse => exact (h stable hmem).stabilize hget
    · rcases mem_append.mp hmem with hmem | hmem
      · exact (h stable hmem).stabilize hget
      · rw [mem_toList] at hmem
        exact ⟨index, _, stable, by simp [setCache], hmem, rfl, rfl⟩

theorem stableAt_foldl_moves (indices : List Nat) (found : PBFTEngine × List PBFTProposal)
    (h : ∀ stable ∈ found.2, found.1.Executed stable) :
    Moves R found.1 (indices.foldl stableAt found).1 ∧
      ∀ stable ∈ (indices.foldl stableAt found).2,
        (indices.foldl stableAt found).1.Executed stable := by
  induction indices generalizing found with
  | nil => exact ⟨.refl, h⟩
  | cons index _ ih =>
    obtain ⟨hmoves, hnext⟩ := stableAt_moves found h index
    obtain ⟨hmoves', hlast⟩ := ih (stableAt found index) hnext
    exact ⟨hmoves.trans hmoves', hlast⟩

theorem checkAndCommitStableCheckPoint_moves : Moves R s s.checkAndCommitStableCheckPoint := by
  obtain ⟨hmoves, hfound⟩ := stableAt_foldl_moves s.caches.keys (s, []) (by simp)
  exact hmoves.trans (updateStableCheckPointQueue_foldl_moves hfound)

/-! ### View changes -/

theorem addViewChangeReq_core (viewChange : ViewChangeMsg) :
    (s.addViewChangeReq viewChange).core = s.core := by
  simp only [addViewChangeReq]
  split
  · rfl
  · split <;> rfl

theorem checkAndTryIntoNewView_moves : Moves R s s.checkAndTryIntoNewView.1 := by
  simp only [checkAndTryIntoNewView]
  split
  · exact .refl
  split
  · exact .refl
  split
  · exact .refl
  split
  · exact .refl
  exact .head (.calm (.send id)) (Moves.aux rfl)

theorem resetCacheAfterViewChange_moves (view latestCommitted : Nat) :
    Moves R s (s.resetCacheAfterViewChange view latestCommitted) :=
  .head (.calm (.resetCaches view)) (Moves.aux rfl)

theorem resetNewViewState_moves (view : Nat) :
    Moves R s (s.setConfig (s.config.resetNewViewState view)) := by
  unfold PBFTConfig.resetNewViewState
  split
  · exact .refl
  next h => exact .calm { Calm.same s with view := Nat.le_of_not_lt h }

theorem reachNewView_moves (view : Nat) : Moves R s (s.reachNewView view) :=
  (resetNewViewState_moves view).trans (resetCacheAfterViewChange_moves _ _)

theorem handlePrePrepareMsg_verify_core (msg : PBFTMessage)
    (generatedFromNewView needCheckSignature : Bool) :
    (s.handlePrePrepareMsg msg true generatedFromNewView needCheckSignature).1.core = s.core := by
  unfold handlePrePrepareMsg
  split
  · rfl
  simp only [Bool.not_true, Bool.false_eq_true, if_false]
  split
  · rfl
  split <;> rfl

theorem reHandle_core (found : PBFTEngine × Nat) (msg : PBFTMessage) :
    (reHandle found msg).1.core = found.1.core := by
  unfold reHandle
  cases msg.consensusProposal with
  | none => rfl
  | some =>
    dsimp only
    split
    · exact handlePrePrepareMsg_verify_core msg true false
    split
    · exact handlePrePrepareMsg_verify_core _ true false
    split <;> rfl

theorem reHandle_foldl_core (msgs : List PBFTMessage) (found : PBFTEngine × Nat) :
    (msgs.foldl reHandle found).1.core = found.1.core := by
  induction msgs generalizing found with
  | nil => rfl
  | cons msg _ ih => exact (ih _).trans (reHandle_core found msg)

theorem reHandlePrePrepareProposals_moves (newView : NewViewMsg) :
    Moves R s (s.reHandlePrePrepareProposals newView) := by
  unfold reHandlePrePrepareProposals
  refine (reachNewView_moves newView.view).trans (Moves.aux ?_)
  split
  · exact reHandle_foldl_core _ _
  · exact reHandle_foldl_core _ (_, _)

theorem tryIntoNewView_moves : Moves R s s.tryIntoNewView := by
  unfold tryIntoNewView
  refine checkAndTryIntoNewView_moves.trans ?_
  dsimp only
  split
  · exact .refl
  · exact reHandlePrePrepareProposals_moves _

theorem sendViewChange_moves : Moves R s s.sendViewChange :=
  .head (.calm (.send id)) ((Moves.aux (addViewChangeReq_core _)).trans tryIntoNewView_moves)

theorem triggerTimeout_moves : Moves R s s.triggerTimeout := by
  refine .trans (Moves.aux ?_) sendViewChange_moves
  rfl

theorem tryTriggerFastViewChange_moves (fuel : Nat) (s : PBFTEngine) (leaderIndex : Nat) :
    Moves R s (tryTriggerFastViewChange fuel s leaderIndex) := by
  induction fuel generalizing s leaderIndex with
  | zero => exact .refl
  | succ _ ih =>
    unfold tryTriggerFastViewChange
    split
    · exact .refl
    split
    · exact .refl
    split
    · exact .refl
    · exact triggerTimeout_moves.trans (ih _ _)

theorem resetTimer_moves : Moves R s s.resetTimer := by
  unfold resetTimer
  split
  · exact .refl
  · exact tryTriggerFastViewChange_moves _ _ _

theorem checkAndCommit_moves : Moves R s s.checkAndCommit :=
  checkAndCommitCaches_moves.trans resetTimer_moves

/-! ### Handlers -/

theorem broadcastPrepareMsg_moves (hR : R.handles s.config.view msg)
    (hcheck : s.checkPrePrepareMsg msg = true) :
    Moves R s ((s.addPrePrepareCache msg).broadcastPrepareMsg msg) := by
  unfold broadcastPrepareMsg
  cases hproposal : msg.consensusProposal with
  | none => simp [checkPrePrepareMsg, checkPBFTMsgState, hproposal] at hcheck
  | some proposal => exact .head (.prepare msg proposal hproposal hR hcheck) checkAndPreCommit_moves

theorem handlePrePrepareMsg_moves (generatedFromNewView needCheckSignature : Bool)
    (hR : R.handles s.config.view msg) :
    Moves R s (s.handlePrePrepareMsg msg false generatedFromNewView needCheckSignature).1 := by
  unfold handlePrePrepareMsg
  split
  · exact .refl
  next hadmits =>
    simp only [admitsPrePrepare, Bool.not_eq_true', Bool.and_eq_true, Bool.not_eq_false] at hadmits
    exact (broadcastPrepareMsg_moves hR hadmits.1.2).trans checkAndPreCommit_moves

theorem handlePrepareMsg_moves (msg : PBFTMessage) : Moves R s (s.handlePrepareMsg msg) := by
  unfold handlePrepareMsg
  split
  · have hvote : Calm s (s.addPrepareCache msg) := .setCache ⟨rfl, rfl, rfl, .inl rfl, rfl, id⟩
    exact .head (.calm hvote) checkAndPreCommit_moves
  · exact .refl

theorem handleCommitMsg_moves (hR : s.checkPBFTMsg msg = true → R.counts msg) :
    Moves R s (s.handleCommitMsg msg) := by
  unfold handleCommitMsg
  split
  next h => exact .head (.commitVote msg (hR h)) checkAndCommit_moves
  · exact .refl

theorem sendRecoverResponse_moves : Moves R s s.sendRecoverResponse :=
  .calm (.send (by simp [Message.IsVote, encode]))

theorem answerViewChange_moves (msg) : Moves R s (s.answerViewChange msg) := by
  unfold answerViewChange
  split
  case isFalse => exact .refl
  split
  · exact sendViewChange_moves.trans sendRecoverResponse_moves
  · exact sendRecoverResponse_moves

theorem isValidViewChangeMsg_moves (msg) :
    Moves R s (s.isValidViewChangeMsg msg).1 := by
  unfold isValidViewChangeMsg
  split
  · exact .refl
  · exact answerViewChange_moves msg

theorem tryToTriggerFastViewChange_core : s.tryToTriggerFastViewChange.1.core = s.core := by
  simp only [tryToTriggerFastViewChange]
  split
  · rfl
  split <;> rfl

theorem fastViewChange_moves (msg) : Moves R s (s.fastViewChange msg) := by
  unfold fastViewChange
  split
  case isFalse => exact .refl
  refine (Moves.aux tryToTriggerFastViewChange_core).trans ?_
  split
  · exact triggerTimeout_moves
  · exact .refl

theorem handleViewChangeMsg_moves (msg) :
    Moves R s (s.handleViewChangeMsg msg) := by
  unfold handleViewChangeMsg
  split
  case isFalse => exact isValidViewChangeMsg_moves msg
  · refine (isValidViewChangeMsg_moves msg).trans ((Moves.aux (addViewChangeReq_core msg)).trans ?_)
    exact (fastViewChange_moves msg).trans tryIntoNewView_moves

theorem checkViewChanges_moves (s : PBFTEngine) (weight : Nat) (msgs : List ViewChangeMsg) :
    Moves R s (s.checkViewChanges weight msgs).1 := by
  induction msgs generalizing s weight with
  | nil => exact .refl
  | cons msg _ ih =>
    unfold checkViewChanges
    have hmsg := s.isValidViewChangeMsg_moves (R := R) msg
    split
    next heq => rw [heq] at hmsg; exact hmsg
    next heq =>
      rw [heq] at hmsg
      split
      · exact hmsg.trans (ih _ _)
      · exact hmsg.trans (ih _ _)

theorem isValidNewViewMsg_moves (msg) : Moves R s (s.isValidNewViewMsg msg).1 := by
  unfold isValidNewViewMsg
  split
  · exact .refl
  have hloop := s.checkViewChanges_moves (R := R) 0 msg.viewChangeMsgList
  split
  next heq => rw [heq] at hloop; exact hloop
  next heq =>
    rw [heq] at hloop
    split
    · exact hloop
    · exact hloop

theorem handleNewViewMsg_moves (msg) : Moves R s (s.handleNewViewMsg msg) := by
  unfold handleNewViewMsg
  refine (isValidNewViewMsg_moves msg).trans ?_
  split
  · exact reHandlePrePrepareProposals_moves msg
  · exact .refl

variable (msg)

theorem shouldRequestCheckPoint_core : (s.shouldRequestCheckPoint msg).1.core = s.core := by
  unfold shouldRequestCheckPoint
  repeat' split
  all_goals rfl

theorem handleCheckPointMsg_moves : Moves R s (s.handleCheckPointMsg msg) := by
  simp only [handleCheckPointMsg]
  split
  · exact .refl
  have hvote : Calm s (s.addCheckPointMsg msg) := .setCache ⟨rfl, rfl, rfl, .inl rfl, rfl, id⟩
  refine .head (.calm hvote) (tryToApplyCommitQueue_moves.trans ?_)
  refine checkAndCommitStableCheckPoint_moves.trans (Moves.aux ?_)
  refine Eq.trans ?_ (shouldRequestCheckPoint_core msg)
  split <;> rfl

theorem addRecoverReqCache_core : (s.addRecoverReqCache msg).core = s.core := by
  simp only [addRecoverReqCache]
  split
  · rfl
  split <;> rfl

theorem recoverView_moves (view : Nat) : Moves R s (s.recoverView view) := by
  have hreset := (s.resetNewViewState_moves (R := R) view).trans
    (resetCacheAfterViewChange_moves view
      (s.config.resetNewViewState view).committedProposal.index)
  exact hreset.trans (Moves.aux rfl)

theorem checkAndTryToRecover_moves : Moves R s s.checkAndTryToRecover := by
  unfold checkAndTryToRecover
  split
  · exact .refl
  · exact recoverView_moves _

theorem handleRecoverResponse_moves : Moves R s (s.handleRecoverResponse msg) := by
  unfold handleRecoverResponse
  split
  · exact (Moves.aux (addRecoverReqCache_core msg)).trans checkAndTryToRecover_moves
  · exact .refl

theorem handleRecoverRequest_moves : Moves R s (s.handleRecoverRequest msg) := by
  unfold handleRecoverRequest
  split
  · exact sendRecoverResponse_moves
  · exact .refl

variable {msg}

theorem handleMsg_moves {msg : Message}
    (hR : ∀ commit, msg = .pbft commit → commit.packetType = .commitPacket →
      s.checkPBFTMsg commit = true → R.counts commit) : Moves R s (s.handleMsg msg) := by
  unfold handleMsg
  split
  · exact .refl
  cases msg with
  | viewChange msg =>
    dsimp only
    split
    · exact .refl
    · exact handleViewChangeMsg_moves msg
  | newView msg =>
    dsimp only
    split
    · exact .refl
    · exact handleNewViewMsg_moves msg
  | pbft msg =>
    dsimp only
    split
    · exact .refl
    split
    · exact .refl
    unfold handlePBFTMessage
    cases htype : msg.packetType with
    | prePreparePacket => exact Moves.aux (handlePrePrepareMsg_verify_core msg false true)
    | preparePacket => exact handlePrepareMsg_moves msg
    | commitPacket => exact handleCommitMsg_moves (hR msg rfl htype)
    | checkPoint => exact handleCheckPointMsg_moves msg
    | recoverRequest => exact handleRecoverRequest_moves msg
    | recoverResponse => exact handleRecoverResponse_moves msg
    | _ => exact .refl

theorem onRecvProposal_moves {containSysTxs data hash}
    (hR : R.handles s.config.view (s.ownPrePrepare containSysTxs data index hash)) :
    Moves R s (s.onRecvProposal containSysTxs data index hash) := by
  simp only [onRecvProposal]
  split
  · exact .refl
  refine (handlePrePrepareMsg_moves false false hR).trans ?_
  split
  · refine Moves.calm (.send ?_)
    simp [Message.IsVote, encode, ownPrePrepare, populatePrePrepare]
  · exact .refl

theorem onVerifyFinished_moves {position verifyResult}
    (hR : ∀ msg generatedFromNewView, s.verifying[position]? = some (msg, generatedFromNewView) →
      verifyResult = true → R.handles s.config.view msg) :
    Moves R s (s.onVerifyFinished position verifyResult) := by
  unfold onVerifyFinished
  cases hget : s.verifying[position]? with
  | none => exact .refl
  | some pending =>
    dsimp only
    have haux : Moves R s { s with verifying := s.verifying.eraseIdx position } := .aux rfl
    refine haux.trans ?_
    split
    · exact .refl
    next h =>
      simp only [Bool.or_eq_true, Bool.not_eq_true', not_or, Bool.not_eq_false] at h
      exact handlePrePrepareMsg_moves _ false (hR pending.1 pending.2 hget h.2)

theorem onRecvPrecommitResponse_core (position : Nat) (precommitMsg : PBFTMessage) :
    (s.onRecvPrecommitResponse position precommitMsg).core = s.core := by
  unfold onRecvPrecommitResponse
  split
  · rfl
  dsimp only
  split
  case h_2 => rfl
  split
  · rfl
  split
  · rfl
  · exact handlePrePrepareMsg_verify_core _ true false

theorem loadAndVerifyProposal_core (proposal) :
    (s.loadAndVerifyProposal proposal).core = s.core := by
  unfold loadAndVerifyProposal
  split
  · rfl
  split <;> rfl

theorem loadAndVerifyProposal_foldl_core (proposals : List PBFTProposal) (s : PBFTEngine) :
    (proposals.foldl loadAndVerifyProposal s).core = s.core := by
  induction proposals generalizing s with
  | nil => rfl
  | cons proposal _ ih => exact (ih _).trans (loadAndVerifyProposal_core proposal)

theorem onRecvCommittedProposalsResponse_core (position : Nat)
    (response : Option (List PBFTProposal)) :
    (s.onRecvCommittedProposalsResponse position response).core = s.core := by
  unfold onRecvCommittedProposalsResponse
  split
  · rfl
  cases response with
  | none => rfl
  | some proposals => exact loadAndVerifyProposal_foldl_core proposals _

theorem onTimeout_moves : Moves R s s.onTimeout := by
  simp only [onTimeout]
  split
  · exact .refl
  refine tryToApplyCommitQueue_moves.trans ?_
  split
  · exact .refl
  refine .head .expire ?_
  split
  · exact .refl
  · exact triggerTimeout_moves

theorem onCheckPointTimeout_moves (index : Nat) : Moves R s (s.onCheckPointTimeout index) := by
  unfold onCheckPointTimeout
  split
  · exact .refl
  next checkpoint hget =>
    obtain ⟨cache, hcache, hcheckpoint⟩ := bind_eq_some_iff.mp hget
    exact .single (.resend checkpoint ⟨index, cache, checkpoint, hcache, hcheckpoint, rfl, rfl⟩)

end PBFTEngine

def Input.Meets (R : Rules) (s : PBFTEngine) : Input → Prop
  | .message (.pbft msg) =>
    msg.packetType = .commitPacket → s.checkPBFTMsg msg = true → R.counts msg
  | .proposal containSysTxs data index hash =>
    R.handles s.config.view (s.ownPrePrepare containSysTxs data index hash)
  | .verified position true => ∀ pending ∈ s.verifying[position]?, R.handles s.config.view pending.1
  | _ => True

instance {R : Rules} [∀ view msg, Decidable (R.handles view msg)]
    [∀ msg, Decidable (R.counts msg)] {s : PBFTEngine} : DecidablePred (Input.Meets R s) :=
  fun _ => by
    unfold Input.Meets
    split <;> infer_instance

def Input.IsOrdinary : Input → Prop
  | .loaded .. | .executed .. | .applied | .committed _ | .newBlock _ => False
  | _ => True

theorem PBFTEngine.step_moves {input} (hmeets : input.Meets R s)
    (hordinary : input.IsOrdinary) : Moves R s (s.step input) := by
  cases input with
  | message =>
    apply handleMsg_moves
    rintro _ rfl htype hcheck
    exact hmeets htype hcheck
  | proposal => exact onRecvProposal_moves hmeets
  | verified =>
    apply onVerifyFinished_moves
    rintro msg _ hget rfl
    exact hmeets _ hget
  | precommitResponse position msg => exact Moves.aux (onRecvPrecommitResponse_core position msg)
  | committedResponse position response =>
    exact Moves.aux (onRecvCommittedProposalsResponse_core position response)
  | timeout => exact onTimeout_moves
  | checkPointTimeout index => exact onCheckPointTimeout_moves index
  | syncing | connected => exact Moves.aux rfl
  | loaded | executed | applied | committed | newBlock => cases hordinary

theorem Move.sameChain (h : Move R s t) : SameChain s.core t.core := by
  cases h with
  | calm h => exact h.toSameChain
  | preCommit =>
    unfold PBFTEngine.preCommitted
    split <;> exact ⟨rfl, rfl, rfl, rfl, rfl, rfl, rfl⟩
  | _ => exact ⟨rfl, rfl, rfl, rfl, rfl, rfl, rfl⟩

theorem Moves.sameChain (h : Moves R s t) : SameChain s.core t.core := by
  induction h with
  | refl => exact .refl _
  | tail _ hmove ih => exact ih.trans hmove.sameChain

end Loki.Fisco
