import Loki.Fisco.Moves

/-!
# The precommit lock

The cache of an index keeps the pre-prepare and the precommit of a node.  Most moves leave both
alone.  A pre-prepare is only replaced by one that agrees with the precommit, so that the commit
messages of one index carry one hash, as long as the lock is not lost: a cache that has executed
its proposal may be dropped, and then only the expected checkpoint keeps the index closed.
-/

namespace Loki.Fisco

open Option PBFTCache PBFTConfig OrderedMap Moves PBFTMessage Bool Nat Std.ExtTreeMap

variable {R : Rules} {s t : PBFTEngine}

open PBFTEngine

/-- The messages of a cache are kept, or dropped where that is allowed. -/
def SameMessages (allowed : Prop) (c c' : PBFTCache) : Prop :=
  c'.prePrepare = c.prePrepare ∧ c'.precommit = c.precommit ∨
    allowed ∧ c'.prePrepare = none ∧ c'.precommit = none

/-- The lock of a cache is not changed, and it is only dropped or closed where that is allowed. -/
structure SameLock (allowed : Prop) (c c' : PBFTCache) : Prop where
  messages : SameMessages allowed c c'
  closed : c'.Closed → c.Closed ∨ allowed

theorem SameLock.refl {allowed : Prop} (c : PBFTCache) : SameLock allowed c c :=
  ⟨.inl ⟨rfl, rfl⟩, .inl⟩

def Core.Ordered (s : Core) : Prop :=
  s.progressedIndex = s.committedProposal.index + 1 ∧ s.progressedIndex ≤ s.expectedCheckPoint

/-- No vote of a lock is sent, and a lock is only lost below the expected checkpoint. -/
structure Quiet (s t : Core) : Prop where
  nodeID : t.nodeID = s.nodeID
  sent_subset : s.sent ⊆ t.sent
  view : s.view ≤ t.view
  expected : s.expectedCheckPoint ≤ t.expectedCheckPoint
  ordered : s.Ordered → t.Ordered
  sent : ∀ m, .pbft m ∈ t.sent →
    m.packetType = .preparePacket ∨ m.packetType = .commitPacket → .pbft m ∈ s.sent
  cache : ∀ i, SameLock (i < t.expectedCheckPoint) (s.cacheAt i) (t.cacheAt i)

namespace Quiet

theorem of_caches_eq (hnodeID : t.config.nodeID = s.config.nodeID) (hsubset : s.sent ⊆ t.sent)
    (hview : s.core.view ≤ t.core.view)
    (hexpected : s.core.expectedCheckPoint ≤ t.core.expectedCheckPoint)
    (hordered : s.core.Ordered → t.core.Ordered) (hsent : ∀ m, .pbft m ∈ t.core.sent →
      m.packetType = .preparePacket ∨ m.packetType = .commitPacket → .pbft m ∈ s.core.sent)
    (hcaches : t.core.caches = s.core.caches) : Quiet s.core t.core where
  nodeID := hnodeID
  sent_subset := hsubset
  view := hview
  expected := hexpected
  ordered := hordered
  sent := hsent
  cache i := by
    simp only [Core.cacheAt, hcaches]
    exact .refl _

theorem of_config_eq (hconfig : t.config = s.config) (hsent : t.sent = s.sent)
    (hcaches : t.caches = s.caches) : Quiet s.core t.core := by
  apply of_caches_eq
  · rw [hconfig]
  · exact hsent ▸ List.Subset.refl _
  · simp [PBFTEngine.core, hconfig]
  · simp [PBFTEngine.core, hconfig]
  · simp [Core.Ordered, PBFTEngine.core, hconfig]
  · intro m hm _
    simpa [PBFTEngine.core, hsent] using hm
  · exact hcaches

theorem of_calm (h : Calm s t) : Quiet s.core t.core where
  nodeID := h.nodeID
  sent_subset := h.sent
  view := h.view
  expected := h.expectedCheckPoint.ge
  ordered hordered := by
    rw [Core.Ordered, h.progressedIndex, h.committedProposal, h.expectedCheckPoint]
    exact hordered
  sent m hm htype := h.votes _ hm (htype.imp_right .inl)
  cache i := ⟨.inl ⟨(h.caches i).prePrepare, (h.caches i).precommit⟩,
    fun hclosed => .inl ((h.caches i).closed hclosed)⟩

theorem eraseExecutedProposal (hash : HashType) :
    Quiet s.core (s.eraseExecutedProposal hash).core :=
  of_config_eq rfl rfl rfl

theorem of_cacheAt {caches} (h : ∀ i, SameLock (i < s.config.expectedCheckPoint)
      (s.core.cacheAt i) ({ s with caches := caches }.core.cacheAt i)) :
    Quiet s.core { s with caches := caches }.core :=
  ⟨rfl, List.Subset.refl _, le_rfl, le_rfl, id, fun _ hm _ => hm, h⟩

theorem setCache {index : Nat} {c'}
    (h : SameLock (index < s.config.expectedCheckPoint) (s.core.cacheAt index) c') :
    Quiet s.core (s.setCache index c').core := by
  refine of_cacheAt fun i => ?_
  rw [← PBFTEngine.setCache, cacheAt_setCache]
  split
  next heq =>
    subst heq
    exact h
  · exact .refl _

theorem filterCaches (keep : Nat → PBFTCache → Bool)
    (h : ∀ (i : Nat) c, s.caches[i]? = some c → keep i c = false →
      i < s.config.expectedCheckPoint) :
    Quiet s.core { s with caches := s.caches.filter keep }.core := by
  refine of_cacheAt fun i => ?_
  rcases s.cacheAt_filter keep i with heq | ⟨heq, c, hget, hkeep⟩
  · rw [heq]
    exact .refl _
  · rw [heq]
    exact ⟨.inr ⟨h i c hget hkeep, rfl, rfl⟩, fun _ => .inr (h i c hget hkeep)⟩

end Quiet

open Quiet

inductive LockMove (R : Rules) (s : PBFTEngine) : PBFTEngine → Prop
  | quiet {t : PBFTEngine} (h : Quiet s.core t.core) : LockMove R s t
  | prepare (msg : PBFTMessage) (proposal : PBFTProposal)
      (hproposal : msg.consensusProposal = some proposal) (hR : R.handles s.config.view msg)
      (hcheck : s.checkPrePrepareMsg msg = true) : LockMove R s (s.prepared msg proposal)
  | preCommit (index : Nat) (cache : PBFTCache) (prePrepare : PBFTMessage)
      (hget : s.caches[index]? = some cache)
      (hready : cache.readyToPreCommit s.config = some prePrepare) :
      LockMove R s (s.preCommitted index cache prePrepare)

abbrev LockMoves (R : Rules) : PBFTEngine → PBFTEngine → Prop := Relation.ReflTransGen (LockMove R)

theorem LockMove.mono {R' : Rules} (h : LockMove R s t)
    (hhandles : ∀ view msg, R.handles view msg → R'.handles view msg) : LockMove R' s t := by
  cases h with
  | quiet h => exact .quiet h
  | prepare msg proposal hproposal hR hcheck =>
    exact .prepare msg proposal hproposal (hhandles _ _ hR) hcheck
  | preCommit index cache prePrepare hget hready =>
    exact .preCommit index cache prePrepare hget hready

theorem LockMove.sent_subset (h : LockMove R s t) :
    t.config.nodeID = s.config.nodeID ∧ s.sent ⊆ t.sent := by
  cases h with
  | quiet h => exact ⟨h.nodeID, h.sent_subset⟩
  | prepare => exact ⟨rfl, List.subset_cons_self _ _⟩
  | preCommit =>
    unfold PBFTEngine.preCommitted
    split
    · exact ⟨rfl, List.Subset.refl _⟩
    · exact ⟨rfl, List.subset_cons_self _ _⟩

theorem LockMoves.sent_subset (h : LockMoves R s t) :
    t.config.nodeID = s.config.nodeID ∧ s.sent ⊆ t.sent := by
  induction h with
  | refl => exact ⟨rfl, List.Subset.refl _⟩
  | tail _ hmove ih =>
    exact ⟨hmove.sent_subset.1.trans ih.1, List.Subset.trans ih.2 hmove.sent_subset.2⟩

theorem LockMoves.quiet (h : Quiet s.core t.core) : LockMoves R s t := .single (.quiet h)

theorem LockMoves.after {u : PBFTEngine} (h : LockMoves R t u) (hconfig : t.config = s.config)
    (hsent : t.sent = s.sent) (hcaches : t.caches = s.caches) : LockMoves R s u :=
  .head (.quiet (of_config_eq hconfig hsent hcaches)) h

theorem PBFTEngine.sent_of_checkPointReq {proposal : PBFTProposal} {m : PBFTMessage}
    (hm : .pbft m ∈ (s.send (.pbft (s.checkPointReq proposal))).sent)
    (htype : m.packetType = .preparePacket ∨ m.packetType = .commitPacket) : .pbft m ∈ s.sent := by
  rcases List.mem_cons.mp hm with heq | hm
  · obtain rfl := Message.pbft.inj heq
    simp [checkPointReq, encode, populateVote] at htype
  · exact hm

theorem Move.lockMove (h : Move R s t) : LockMove R s t := by
  cases h with
  | calm h => exact .quiet (of_calm h)
  | prepare msg proposal hproposal hR hcheck => exact .prepare msg proposal hproposal hR hcheck
  | preCommit index cache prePrepare hget hready =>
    exact .preCommit index cache prePrepare hget hready
  | commitVote => exact .quiet (setCache ⟨.inl ⟨rfl, rfl⟩, .inl⟩)
  | resend =>
    exact .quiet (of_caches_eq rfl (List.subset_cons_self _ _) le_rfl le_rfl id
      (fun _ => sent_of_checkPointReq) rfl)
  | enqueue | apply | expire | enqueueStable | store => exact .quiet (of_config_eq rfl rfl rfl)

theorem Moves.lockMoves (h : Moves R s t) : LockMoves R s t :=
  Relation.ReflTransGen.mono (fun _ _ => Move.lockMove) _ _ h

namespace PBFTEngine

theorem checkPrePrepareMsg_spec {msg : PBFTMessage} (h : s.checkPrePrepareMsg msg = true) :
    s.config.expectedCheckPoint ≤ msg.index ∧
      (s.core.cacheAt msg.index = { index := msg.index } ∨
        (s.core.cacheAt msg.index).conflictWithProcessedReq s.config msg = false ∧
          (s.core.cacheAt msg.index).conflictWithPrecommitReq s.config msg = false) := by
  simp only [checkPrePrepareMsg, checkPBFTMsgState, and_eq_true, not_eq_true',
    or_eq_false_iff, decide_eq_false_iff_not, not_lt] at h
  refine ⟨h.1.1.1.1.2.1.1.1.2, ?_⟩
  have hprocessed := h.1.2
  have hprecommit := h.2
  simp only [conflictWithProcessedReq, conflictWithPrecommitReq] at hprocessed hprecommit
  cases hget : s.caches[msg.index]? with
  | none => simp [Core.cacheAt, core, hget]
  | some cache =>
    rw [hget, any_some] at hprocessed hprecommit
    rw [cacheAt_eq hget]
    exact .inr ⟨hprocessed, hprecommit⟩

def preparedCache (s : PBFTEngine) (msg : PBFTMessage) (proposal : PBFTProposal) : PBFTCache :=
  ((s.core.cacheAt msg.index).addPrePrepareCache msg).addPrepareCache
    s.config (s.prepareReq msg proposal)

section

variable (msg : PBFTMessage) (proposal : PBFTProposal)

theorem cacheAt_prepared (i : Nat) :
    (s.prepared msg proposal).core.cacheAt i =
      if msg.index = i then s.preparedCache msg proposal else s.core.cacheAt i := by
  have hindex : (s.prepareReq msg proposal).index = msg.index := rfl
  simp only [Core.cacheAt, core, prepared, addPrePrepareCache, addPrepareCache, addCache, send,
    setCache, hindex, getElem?_insert, if_true, getD_some]
  split <;> rfl

theorem preparedCache_lock :
    (s.preparedCache msg proposal).precommit = (s.core.cacheAt msg.index).precommit ∧
      ((s.preparedCache msg proposal).Closed → (s.core.cacheAt msg.index).Closed) := by
  unfold preparedCache PBFTCache.addPrepareCache
  rcases addPrePrepareCache_cases (s.core.cacheAt msg.index) msg with ⟨heq, -⟩ | heq
  · rw [heq]; exact ⟨rfl, id⟩
  · rw [heq]; exact ⟨rfl, id⟩

theorem preparedCache_prePrepare :
    (s.preparedCache msg proposal).prePrepare = some msg ∨
      (s.preparedCache msg proposal).prePrepare = (s.core.cacheAt msg.index).prePrepare ∧
        (s.core.cacheAt msg.index).Closed := by
  unfold preparedCache PBFTCache.addPrepareCache
  rcases addPrePrepareCache_cases (s.core.cacheAt msg.index) msg with ⟨heq, hclosed⟩ | heq
  · rw [heq]; exact .inr ⟨rfl, hclosed.symm⟩
  · rw [heq]; exact .inl rfl

theorem cacheAt_preCommitted (index : Nat) (cache) (prePrepare : PBFTMessage) (i : Nat) :
    (s.preCommitted index cache prePrepare).core.cacheAt i =
      if index = i then cache.preCommitted s.config prePrepare else s.core.cacheAt i := by
  simp only [Core.cacheAt, core, preCommitted_caches, getElem?_insert]
  split <;> rfl

end

end PBFTEngine

/-- The messages of a cache are of its index, and its pre-prepare agrees with its precommit. -/
structure Held (i : Nat) (pre commit : Option PBFTMessage) : Prop where
  prePrepare : ∀ m, pre = some m → m.index = i
  precommit : ∀ m, commit = some m → m.index = i ∧ ∃ p, pre = some p ∧ p.hash = m.hash

structure HeldInv (s : Core) : Prop where
  ordered : s.Ordered
  held : ∀ i, Held i (s.cacheAt i).prePrepare (s.cacheAt i).precommit

namespace HeldInv

theorem of_caches {s t : Core} {p : Nat → Prop} (h : HeldInv s) (hordered : t.Ordered)
    (hcaches : ∀ i, SameMessages (p i) (s.cacheAt i) (t.cacheAt i)) : HeldInv t := by
  refine ⟨hordered, fun i => ?_⟩
  rcases hcaches i with ⟨hpre, hcommit⟩ | ⟨-, hpre, hcommit⟩
  · rw [hpre, hcommit]
    exact h.held i
  · rw [hpre, hcommit]
    exact ⟨nofun, nofun⟩

theorem quiet {s t : Core} (h : HeldInv s) (hq : Quiet s t) : HeldInv t :=
  h.of_caches (hq.ordered h.ordered) fun i => (hq.cache i).messages

theorem hash_eq (h : HeldInv s.core) {msg : PBFTMessage} (hcheck : s.checkPrePrepareMsg msg = true)
    {m : PBFTMessage} (hm : (s.core.cacheAt msg.index).precommit = some m) : msg.hash = m.hash := by
  obtain ⟨hindex, -⟩ := (h.held _).precommit m hm
  obtain ⟨hexpected, hnew | ⟨-, hconflict⟩⟩ := checkPrePrepareMsg_spec hcheck
  · rw [hnew] at hm
    cases hm
  · refine hash_eq_of_not_conflictWithPrecommitReq hconflict hm hindex ?_
    rw [hindex]
    exact h.ordered.2.trans hexpected

theorem prepared (h : HeldInv s.core) {msg : PBFTMessage} (proposal)
    (hcheck : s.checkPrePrepareMsg msg = true) : HeldInv (s.prepared msg proposal).core := by
  refine ⟨h.ordered, fun i => ?_⟩
  rw [cacheAt_prepared]
  split
  case isFalse => exact h.held i
  next heq =>
    subst heq
    have hheld := h.held msg.index
    rw [(s.preparedCache_lock msg proposal).1]
    rcases s.preparedCache_prePrepare msg proposal with hnew | ⟨hold, -⟩
    · rw [hnew]
      refine ⟨fun m hm => some.inj hm ▸ rfl, fun m hm => ?_⟩
      exact ⟨(hheld.precommit m hm).1, msg, rfl, h.hash_eq hcheck hm⟩
    · rw [hold]
      exact hheld

theorem prePrepare_index (h : HeldInv s.core) {index : Nat} {cache} {prePrepare : PBFTMessage}
    (hget : s.caches[index]? = some cache) (hpre : cache.prePrepare = some prePrepare) :
    prePrepare.index = index :=
  (h.held index).prePrepare prePrepare (by rw [cacheAt_eq hget, hpre])

theorem preCommitted (h : HeldInv s.core) {index : Nat} {cache}
    {prePrepare : PBFTMessage} (hget : s.caches[index]? = some cache)
    (hready : cache.readyToPreCommit s.config = some prePrepare) :
    HeldInv (s.preCommitted index cache prePrepare).core := by
  have hindex := h.prePrepare_index hget (readyToPreCommit_eq_some hready).1
  refine ⟨?_, fun i => ?_⟩
  · simpa [Core.Ordered, PBFTEngine.core, PBFTEngine.preCommitted_config] using h.ordered
  · rw [cacheAt_preCommitted]
    split
    case isFalse => exact h.held i
    next heq =>
      subst heq
      rw [preCommitted_prePrepare, preCommitted_precommit]
      exact ⟨fun _ hm => some.inj hm ▸ hindex, fun _ hm => some.inj hm ▸ ⟨hindex, _, rfl, rfl⟩⟩

theorem of_isInit (h : s.IsInit) : HeldInv s.core := by
  refine ⟨?_, fun i => ?_⟩
  · obtain ⟨_, _, _, _, _, rfl⟩ := h
    simp [Core.Ordered, PBFTEngine.core, PBFTEngine.init, resetConfig, setCommittedProposal]
  · rw [h.cacheAt]
    constructor
    all_goals
      intro _ hm
      cases hm

end HeldInv

/-- Besides, a cache is below the expected checkpoint once it is executed. -/
structure CacheInv (s : Core) : Prop extends HeldInv s where
  closed : ∀ i, (s.cacheAt i).Closed → i < s.expectedCheckPoint

namespace CacheInv

theorem quiet {s t : Core} (h : CacheInv s) (hq : Quiet s t) : CacheInv t where
  toHeldInv := h.toHeldInv.quiet hq
  closed i hclosed := by
    rcases (hq.cache i).closed hclosed with hold | hbelow
    · exact (h.closed i hold).trans_le hq.expected
    · exact hbelow

theorem prepared_prePrepare (h : CacheInv s.core) {msg : PBFTMessage} (proposal)
    (hcheck : s.checkPrePrepareMsg msg = true) :
    ((s.prepared msg proposal).core.cacheAt msg.index).prePrepare = some msg := by
  rw [cacheAt_prepared, if_pos rfl]
  rcases s.preparedCache_prePrepare msg proposal with hnew | ⟨-, hclosed⟩
  · exact hnew
  · exact absurd (checkPrePrepareMsg_spec hcheck).1 (not_le.mpr (h.closed _ hclosed))

theorem prepared (h : CacheInv s.core) {msg : PBFTMessage} (proposal)
    (hcheck : s.checkPrePrepareMsg msg = true) : CacheInv (s.prepared msg proposal).core where
  toHeldInv := h.toHeldInv.prepared proposal hcheck
  closed i hc := by
    rw [cacheAt_prepared] at hc
    split at hc
    case isFalse => exact h.closed i hc
    next heq => exact heq ▸ h.closed _ ((s.preparedCache_lock msg proposal).2 hc)

theorem preCommitted (h : CacheInv s.core) {index : Nat} {cache}
    {prePrepare : PBFTMessage} (hget : s.caches[index]? = some cache)
    (hready : cache.readyToPreCommit s.config = some prePrepare) :
    CacheInv (s.preCommitted index cache prePrepare).core where
  toHeldInv := h.toHeldInv.preCommitted hget hready
  closed i hclosed := by
    rw [cacheAt_preCommitted] at hclosed
    simp only [PBFTEngine.core, PBFTEngine.preCommitted_config]
    split at hclosed
    case isFalse => exact h.closed i hclosed
    next heq =>
      refine heq ▸ h.closed index ?_
      rw [cacheAt_eq hget]
      simpa [Closed, preCommitted_checkpointProposal, preCommitted_stableCommitted] using hclosed

theorem of_isInit (h : s.IsInit) : CacheInv s.core where
  toHeldInv := .of_isInit h
  closed i hclosed := by
    rw [h.cacheAt] at hclosed
    simp [Closed] at hclosed

theorem lockMove (h : CacheInv s.core) (hmove : LockMove R s t) : CacheInv t.core := by
  cases hmove with
  | quiet hquiet => exact h.quiet hquiet
  | prepare _ proposal _ _ hcheck => exact h.prepared proposal hcheck
  | preCommit _ _ _ hget hready => exact h.preCommitted hget hready

theorem lockMoves (h : CacheInv s.core) (hmoves : LockMoves R s t) : CacheInv t.core := by
  induction hmoves with
  | refl => exact h
  | tail _ hmove ih => exact ih.lockMove hmove

end CacheInv

/-! ### Executed and committed proposals -/

/-- The expected checkpoint is not moved back: by a failed execution, by an execution that answers
with a lower block, or by a synced block below what the node has executed. -/
def Input.KeepsCheckPoint (s : PBFTEngine) : Input → Prop
  | .applied => ∀ result ∈ s.finished.head?, s.config.expectedCheckPoint ≤
      (result.2.map (·.index)).getD s.config.committedProposal.index + 1
  | .newBlock ledgerConfig => s.config.committedProposal.index < ledgerConfig.blockNumber →
      s.config.expectedCheckPoint ≤ ledgerConfig.blockNumber + 1
  | _ => True

instance {s : PBFTEngine} : DecidablePred (Input.KeepsCheckPoint s) := fun _ => by
  unfold Input.KeepsCheckPoint
  split <;> infer_instance

namespace PBFTEngine

theorem updateCommitQueue_lockMoves (proposal) :
    LockMoves R s (s.updateCommitQueue proposal) := by
  rcases s.updateCommitQueue_moves proposal with heq | hmoves
  · rw [heq]
  · exact LockMoves.after (lockMoves hmoves) rfl rfl rfl

theorem updateCommitQueue_sameChain (proposal) :
    SameChain s.core (s.updateCommitQueue proposal).core := by
  rcases s.updateCommitQueue_moves (R := ⟨fun _ _ => True, fun _ => True⟩) proposal
    with heq | hmoves
  · rw [heq]; exact .refl _
  · have hqueue : SameChain s.core
        { s with committedQueue := s.committedQueue ++ [proposal] }.core :=
      ⟨rfl, rfl, rfl, rfl, rfl, rfl, rfl⟩
    exact hqueue.trans (sameChain hmoves)

theorem onLoadAndVerifyProposal_lockMoves (position : Nat) (verifyResult : Bool) :
    LockMoves R s (s.onLoadAndVerifyProposal position verifyResult) := by
  unfold onLoadAndVerifyProposal
  split
  · exact .refl
  next proposal _ =>
    cases verifyResult with
    | true => exact LockMoves.after (updateCommitQueue_lockMoves proposal) rfl rfl rfl
    | false => exact lockMoves (aux rfl)

theorem onExecuteFinished_lockMoves (position : Nat) (executed : Option PBFTProposal) :
    LockMoves R s (s.onExecuteFinished position executed) := by
  unfold onExecuteFinished
  split
  · exact .refl
  refine LockMoves.quiet ?_
  dsimp only
  split <;> exact of_config_eq rfl rfl rfl

theorem setExpectedCheckPoint_lockMoves {index : Nat} (h : s.config.expectedCheckPoint ≤ index) :
    LockMoves R s (s.setConfig (s.config.setExpectedCheckPoint index)) := by
  refine LockMoves.quiet (of_caches_eq rfl (List.Subset.refl _) le_rfl ?_ ?_ (fun _ hm _ => hm) rfl)
  · exact h.trans (le_max_right _ _)
  · intro hordered
    exact ⟨hordered.1, hordered.1.trans_le (le_max_left _ _)⟩

theorem onProposalApplyFailed_lockMoves (proposal)
    (h : s.config.expectedCheckPoint ≤ s.config.committedProposal.index + 1) :
    LockMoves R s (s.onProposalApplyFailed proposal) := by
  have hretry : LockMoves R s
      ((s.eraseExecutedProposal proposal.hash).updateCommitQueue proposal) :=
    LockMoves.after (updateCommitQueue_lockMoves proposal) rfl rfl rfl
  have hchain := (s.eraseExecutedProposal proposal.hash).updateCommitQueue_sameChain proposal
  simp only [onProposalApplyFailed]
  split
  · refine hretry.trans (.tail (setExpectedCheckPoint_lockMoves ?_)
      (.quiet (Quiet.eraseExecutedProposal proposal.hash)))
    have hexpected := hchain.expectedCheckPoint
    have hcommitted := hchain.committedProposal
    simp only [core, eraseExecutedProposal] at hexpected hcommitted
    simpa [eraseExecutedProposal, hexpected, hcommitted] using h
  · exact .tail (setExpectedCheckPoint_lockMoves h)
      (.quiet (Quiet.eraseExecutedProposal proposal.hash))

/-- The part of `onProposalApplySuccess` that announces the checkpoint and keeps it. -/
def recordExecuted (s : PBFTEngine) (executed : PBFTProposal) : PBFTEngine :=
  let checkPointMsg := s.checkPointReq executed
  let s := ((s.send (.pbft checkPointMsg)).addCheckPointMsg checkPointMsg)
  let s := s.setCheckPointProposal executed
  s.setConfig (s.config.setExpectedCheckPoint (executed.index + 1))

theorem cacheAt_recordExecuted (executed : PBFTProposal) (i : Nat) :
    (s.recordExecuted executed).core.cacheAt i =
      if executed.index = i then
        ((s.core.cacheAt executed.index).addCheckPointMsg s.config
          (s.checkPointReq executed)).setCheckPointProposal s.config executed
      else s.core.cacheAt i := by
  have hindex : (s.checkPointReq executed).index = executed.index := rfl
  simp only [Core.cacheAt, core, recordExecuted, setCheckPointProposal, addCheckPointMsg, addCache,
    send, setCache, setConfig, hindex, getElem?_insert, if_true, getD_some]
  split <;> rfl

theorem recordExecuted_lockMoves (executed : PBFTProposal)
    (h : s.config.expectedCheckPoint ≤ executed.index + 1) :
    LockMoves R s (s.recordExecuted executed) := by
  refine LockMoves.quiet ⟨rfl, List.subset_cons_self _ _, le_rfl, h.trans (le_max_right _ _), ?_,
    fun _ => sent_of_checkPointReq, ?_⟩
  · intro hordered
    exact ⟨hordered.1, hordered.1.trans_le (le_max_left _ _)⟩
  · intro i
    rw [cacheAt_recordExecuted]
    split
    case isFalse => exact .refl _
    next heq =>
      subst heq
      refine ⟨?_, fun _ => .inr (Nat.le_max_right _ _)⟩
      rcases PBFTCache.setCheckPointProposal_cases s.config _ executed with heq | heq
      · rw [heq]
        exact .inl ⟨rfl, rfl⟩
      · rw [heq]
        exact .inl ⟨rfl, rfl⟩

theorem onProposalApplySuccess_lockMoves (proposal executed : PBFTProposal)
    (h : s.config.expectedCheckPoint ≤ executed.index + 1) :
    LockMoves R s (s.onProposalApplySuccess proposal executed) := by
  exact (recordExecuted_lockMoves executed h).trans (.tail (lockMoves
    (checkAndCommitStableCheckPoint_moves.trans tryToApplyCommitQueue_moves))
    (.quiet (Quiet.eraseExecutedProposal proposal.hash)))

theorem onProposalApplied_lockMoves (h : Input.applied.KeepsCheckPoint s) :
    LockMoves R s s.onProposalApplied := by
  unfold onProposalApplied
  cases hfinished : s.finished with
  | nil => exact .refl
  | cons result =>
    have hkeeps := h result (by simp [hfinished])
    obtain ⟨proposal, result⟩ := result
    cases result with
    | none => exact LockMoves.after (onProposalApplyFailed_lockMoves proposal hkeeps) rfl rfl rfl
    | some executed =>
      exact LockMoves.after (onProposalApplySuccess_lockMoves proposal executed hkeeps) rfl rfl rfl

theorem resetConfig_ordered {config : PBFTConfig} (ledgerConfig)
    (hprogressed : config.progressedIndex = config.committedProposal.index + 1)
    (hexpected : config.progressedIndex ≤ config.expectedCheckPoint) :
    (config.resetConfig ledgerConfig).progressedIndex =
        (config.resetConfig ledgerConfig).committedProposal.index + 1 ∧
      (config.resetConfig ledgerConfig).progressedIndex ≤
        (config.resetConfig ledgerConfig).expectedCheckPoint ∧
      config.expectedCheckPoint ≤ (config.resetConfig ledgerConfig).expectedCheckPoint ∧
      ledgerConfig.blockNumber < (config.resetConfig ledgerConfig).expectedCheckPoint := by
  unfold resetConfig
  split
  · refine ⟨hprogressed, hexpected, le_rfl, by omega⟩
  · simp only [setCommittedProposal]
    omega

theorem resetConfig_synced {config : PBFTConfig} {ledgerConfig}
    (hcommitted : config.committedProposal.index < ledgerConfig.blockNumber)
    (hexpected : config.expectedCheckPoint ≤ ledgerConfig.blockNumber + 1) :
    (config.resetConfig ledgerConfig).expectedCheckPoint ≤
      (config.resetConfig ledgerConfig).committedProposal.index + 1 := by
  unfold resetConfig
  rw [if_neg (by omega)]
  simp only [setCommittedProposal]
  omega

theorem resetConfig_lockMoves (h : s.core.Ordered) (ledgerConfig) :
    LockMoves R s (s.setConfig (s.config.resetConfig ledgerConfig)) := by
  obtain ⟨hprogressed, hexpected, hle, -⟩ := resetConfig_ordered ledgerConfig h.1 h.2
  refine LockMoves.quiet (of_caches_eq ?_ (List.Subset.refl _) ?_ hle
    (fun _ => ⟨hprogressed, hexpected⟩) (fun _ hm _ => hm) rfl)
  · simp only [setConfig, resetConfig]
    split <;> rfl
  · simp only [core, setConfig, resetConfig]
    split <;> exact le_rfl

theorem removeConsensusedCache_lockMoves (h : CacheInv s.core) {view consensusedNumber : Nat}
    (hnumber : consensusedNumber < s.config.expectedCheckPoint) :
    LockMoves R s (s.removeConsensusedCache view consensusedNumber) := by
  refine .head (.quiet (filterCaches (fun index cache =>
    consensusedNumber < index && !cache.stableCommitted) ?_)) (lockMoves (aux rfl))
  intro i c hget hkeep
  by_cases hstable : c.stableCommitted
  · exact h.closed i (cacheAt_eq hget ▸ .inr hstable)
  · have hle : i ≤ consensusedNumber := by simpa [hstable] using hkeep
    exact hle.trans_lt hnumber

theorem removeFutureProposals_lockMoves (h : CacheInv s.core)
    (hexpected : s.config.expectedCheckPoint ≤ s.config.committedProposal.index + 1) :
    LockMoves R s s.removeFutureProposals := by
  let keep index (cache : PBFTCache) :=
    !(s.config.committedProposal.index ≤ index && cache.checkpointProposal.isSome)
  have hraise : LockMoves R { s with caches := s.caches.filter keep } s.removeFutureProposals :=
    LockMoves.after (setExpectedCheckPoint_lockMoves (s := { s with
      committedQueue := []
      committedProposalList := []
      stableCheckPointQueue := []
      caches := s.caches.filter keep }) hexpected) rfl rfl rfl
  refine .head (.quiet (filterCaches keep ?_)) hraise
  intro i c hget hkeep
  rw [not_eq_false', and_eq_true] at hkeep
  exact h.closed i (cacheAt_eq hget ▸ .inl hkeep.2)

theorem finalizeConsensus_lockMoves (h : CacheInv s.core) {ledgerConfig}
    {syncedBlock} (hsynced : syncedBlock = true →
      s.config.committedProposal.index < ledgerConfig.blockNumber ∧
        s.config.expectedCheckPoint ≤ ledgerConfig.blockNumber + 1) :
    LockMoves R s (s.finalizeConsensus ledgerConfig syncedBlock) := by
  obtain ⟨-, -, -, hnumber⟩ := resetConfig_ordered ledgerConfig h.ordered.1 h.ordered.2
  -- Between the clean-ups there are only moves, which keep the expected checkpoint.
  have hreset : LockMoves R s (s.setConfig (s.config.resetConfig ledgerConfig)) :=
    resetConfig_lockMoves h.ordered ledgerConfig
  have happly : Moves R (s.setConfig (s.config.resetConfig ledgerConfig))
      (s.setConfig (s.config.resetConfig ledgerConfig)).tryToApplyCommitQueue.1 :=
    tryToApplyCommitQueue_moves
  simp only [finalizeConsensus]
  generalize hs₁ : (s.setConfig (s.config.resetConfig ledgerConfig)).tryToApplyCommitQueue.1 = s₁
    at happly ⊢
  have hmoves₁ : LockMoves R s s₁ := hreset.trans (lockMoves happly)
  have hchain₁ := sameChain happly
  have hdrop : LockMoves R s₁
      (s₁.removeConsensusedCache s₁.config.view ledgerConfig.blockNumber) :=
    removeConsensusedCache_lockMoves (h.lockMoves hmoves₁)
      (hnumber.trans_eq hchain₁.expectedCheckPoint.symm)
  have hstable : Moves R (s₁.removeConsensusedCache s₁.config.view ledgerConfig.blockNumber)
      (s₁.removeConsensusedCache s₁.config.view
        ledgerConfig.blockNumber).tryToCommitStableCheckPoint.resetTimer :=
    tryToCommitStableCheckPoint_moves.trans resetTimer_moves
  have hmoves₂ := hmoves₁.trans (hdrop.trans (lockMoves hstable))
  cases syncedBlock with
  | false => exact hmoves₂
  | true =>
    refine hmoves₂.trans (removeFutureProposals_lockMoves (h.lockMoves hmoves₂) ?_)
    obtain ⟨hcommitted, hle⟩ := hsynced rfl
    have hchain₂ := sameChain hstable
    have hexpected := hchain₂.expectedCheckPoint.trans hchain₁.expectedCheckPoint
    have hindex := hchain₂.committedProposal.trans hchain₁.committedProposal
    simp only [core] at hexpected hindex
    rw [hexpected, hindex]
    exact resetConfig_synced hcommitted hle

/-- One step of a node moves its locks by the rules, if it keeps the expected checkpoint. -/
theorem step_lockMoves (h : CacheInv s.core) {input} (hmeets : input.Meets R s)
    (hkeeps : input.KeepsCheckPoint s) : LockMoves R s (s.step input) := by
  cases input with
  | loaded position verifyResult => exact onLoadAndVerifyProposal_lockMoves position verifyResult
  | executed position executed => exact onExecuteFinished_lockMoves position executed
  | applied => exact onProposalApplied_lockMoves hkeeps
  | committed ledgerConfig =>
    simp only [step, onStableCheckPointCommitted]
    split
    · exact .refl
    next _ committing _ =>
      have hnext : CacheInv { s with committing := committing }.core :=
        h.quiet (of_config_eq rfl rfl rfl)
      refine LockMoves.after (t := { s with committing := committing }) ?_ rfl rfl rfl
      cases ledgerConfig with
      | none => exact .refl
      | some => exact finalizeConsensus_lockMoves hnext (by simp)
  | newBlock ledgerConfig =>
    simp only [step, asyncNotifyNewBlock]
    split
    next hreset =>
      have hlt : s.config.committedProposal.index < ledgerConfig.blockNumber := by
        simpa [shouldResetConfig] using hreset
      exact finalizeConsensus_lockMoves h fun _ => ⟨hlt, hkeeps hlt⟩
    · exact .refl
  | _ => exact lockMoves (step_moves hmeets trivial)

theorem run_lockInvariant {P : PBFTEngine → Prop}
    (hP : ∀ {s t}, CacheInv s.core → P s → LockMoves R s t → P t) (hs : s.IsInit)
    (hstart : P s) {inputs : List Input}
    (h : s.Along (fun s input => input.Meets R s ∧ input.KeepsCheckPoint s) inputs) :
    P (s.run inputs) := by
  refine (Foundation.Along.invariant (P := fun s => CacheInv s.core ∧ P s)
    (fun s _ hs hC => ?_) ⟨CacheInv.of_isInit hs, hstart⟩ h).2
  have hmoves := step_lockMoves hs.1 hC.1 hC.2
  exact ⟨hs.1.lockMoves hmoves, hP hs.1 hs.2 hmoves⟩

end PBFTEngine

end Loki.Fisco
