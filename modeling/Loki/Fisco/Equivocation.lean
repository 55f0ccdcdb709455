import Loki.Fisco.Lock

/-!
# Equivocation

A node that votes only for pre-prepares of its own view, and that never moves its expected
checkpoint back, sends one prepare hash for a view and an index.  If the pre-prepares it votes for
have proposals that agree with their headers, it sends one commit hash for an index, whatever the
views.  Both laws fail for the node as it is: a pre-prepare of a later view is answered with a
prepare of the current one, and a synced block drops the lock of an executed proposal.
-/

namespace Loki.Fisco

open PBFTEngine PBFTCache Option

variable {s t : PBFTEngine}

namespace PBFTEngine

def SentVote (s : PBFTEngine) (packetType : PacketType) (m : PBFTMessage) : Prop :=
  .pbft m ∈ s.sent ∧ m.packetType = packetType

instance (s : PBFTEngine) (packetType : PacketType) (m : PBFTMessage) :
    Decidable (s.SentVote packetType m) :=
  inferInstanceAs (Decidable (_ ∧ _))

instance (s : PBFTEngine) (packetType : PacketType) (index : Nat) (hash : HashType) :
    Decidable (∃ m, s.SentVote packetType m ∧ m.index = index ∧ m.hash = hash) :=
  decidable_of_iff ((s.sent.any fun
      | .pbft m => decide (m.packetType = packetType ∧ m.index = index ∧ m.hash = hash)
      | _ => false) = true) <| by
    rw [List.any_eq_true]
    constructor
    · rintro ⟨msg, hmem, hmsg⟩
      cases msg with
      | pbft m =>
        obtain ⟨htype, hrest⟩ := of_decide_eq_true hmsg
        exact ⟨m, ⟨hmem, htype⟩, hrest⟩
      | viewChange | newView => cases hmsg
    · rintro ⟨m, hm, hrest⟩
      exact ⟨.pbft m, hm.1, decide_eq_true ⟨hm.2, hrest⟩⟩

variable {packetType : PacketType}

theorem sentVote_prepared {m msg proposal} (h : (s.prepared msg proposal).SentVote packetType m) :
    s.SentVote packetType m ∨ packetType = .preparePacket ∧ m = s.prepareReq msg proposal := by
  obtain ⟨hm, htype⟩ := h
  rcases List.mem_cons.mp hm with heq | hm
  · obtain rfl := Message.pbft.inj heq
    exact .inr ⟨htype.symm, rfl⟩
  · exact .inl ⟨hm, htype⟩

theorem sentVote_preCommitted {m prePrepare index cache}
    (h : (s.preCommitted index cache prePrepare).SentVote packetType m) :
    s.SentVote packetType m ∨ packetType = .commitPacket ∧
      commitReq s.config (cache.precommitOf s.config prePrepare) = some m := by
  obtain ⟨hm, htype⟩ := h
  unfold preCommitted at hm
  split at hm
  · exact .inl ⟨hm, htype⟩
  next _ hreq =>
    rcases List.mem_cons.mp hm with heq | hm
    · obtain rfl := Message.pbft.inj heq
      obtain ⟨_, -, rfl⟩ := map_eq_some_iff.mp hreq
      exact .inr ⟨htype.symm, hreq⟩
    · exact .inl ⟨hm, htype⟩

theorem sentVote_quiet {m} (hq : Quiet s.core t.core) (h : t.SentVote packetType m)
    (htype : packetType = .preparePacket ∨ packetType = .commitPacket) : s.SentVote packetType m :=
  ⟨hq.sent m h.1 (h.2 ▸ htype), h.2⟩

end PBFTEngine

/-! ### Prepares -/

def currentView : Rules where
  handles view msg := msg.view = view ∧ ∀ proposal ∈ msg.consensusProposal, proposal.hash = msg.hash
  counts _ := True

instance : ∀ view msg, Decidable (currentView.handles view msg) :=
  fun _ _ => inferInstanceAs (Decidable (_ ∧ _))

instance : ∀ msg, Decidable (currentView.counts msg) :=
  fun _ => isTrue trivial

/-- Each prepare of the current view is held by the cache of its index. -/
structure PrepareLock (s : PBFTEngine) : Prop where
  view : ∀ m, s.SentVote .preparePacket m → m.view ≤ s.config.view
  locked : ∀ m, s.SentVote .preparePacket m → m.view = s.config.view →
    m.index < s.config.expectedCheckPoint ∨ ∃ p,
      (s.core.cacheAt m.index).prePrepare = some p ∧ p.view = m.view ∧ p.hash = m.hash
  unique : ∀ m m', s.SentVote .preparePacket m → s.SentVote .preparePacket m' →
    m.view = m'.view → m.index = m'.index → m.hash = m'.hash

namespace PrepareLock

section

variable (h : PrepareLock s)

include h

theorem quiet (hq : Quiet s.core t.core) : PrepareLock t where
  view m hm := (h.view m (sentVote_quiet hq hm (.inl rfl))).trans hq.view
  locked m hm hview := by
    have hold := sentVote_quiet hq hm (.inl rfl)
    -- A prepare of the new view has been sent in it, so the view is the old one.
    have hsame : m.view = s.config.view := le_antisymm (h.view m hold) (hview ▸ hq.view)
    rcases h.locked m hold hsame with hlt | ⟨p, hp, hrest⟩
    · exact .inl (hlt.trans_le hq.expected)
    rcases (hq.cache m.index).messages with ⟨hpre, -⟩ | ⟨hlt, -⟩
    · exact .inr ⟨p, hpre.trans hp, hrest⟩
    · exact .inl hlt
  unique m m' hm hm' := h.unique m m' (sentVote_quiet hq hm (.inl rfl))
    (sentVote_quiet hq hm' (.inl rfl))

theorem hash_eq {m msg} (hm : s.SentVote .preparePacket m)
    (hcheck : s.checkPrePrepareMsg msg = true) (hmsg : msg.view = s.config.view)
    (hview : m.view = s.config.view) (hindex : m.index = msg.index) : msg.hash = m.hash := by
  obtain ⟨_, hconflict⟩ := checkPrePrepareMsg_spec hcheck
  rcases h.locked m hm hview with _ | ⟨p, hp, hpview, hhash⟩
  · omega
  rw [hindex] at hp
  rcases hconflict with hnew | ⟨hprocessed, -⟩
  · rw [hnew] at hp
    cases hp
  · rw [← hhash]
    exact hash_eq_of_not_conflictWithProcessedReq hprocessed hp
      (hmsg.trans (hview.symm.trans hpview.symm))

theorem prepared (hinv : CacheInv s.core) {msg proposal}
    (hproposal : msg.consensusProposal = some proposal) (hR : currentView.handles s.config.view msg)
    (hcheck : s.checkPrePrepareMsg msg = true) : PrepareLock (s.prepared msg proposal) := by
  obtain ⟨hmsg, hhash⟩ := hR
  have hnew : (s.prepareReq msg proposal).hash = msg.hash := hhash proposal hproposal
  have hpre := hinv.prepared_prePrepare proposal hcheck
  refine ⟨fun m hm => ?_, fun m hm hview => ?_, fun m m' hm hm' hview hindex => ?_⟩
  · rcases sentVote_prepared hm with hold | ⟨-, rfl⟩
    · exact h.view m hold
    · exact le_rfl
  · rcases sentVote_prepared hm with hold | ⟨-, rfl⟩
    · by_cases hindex : m.index = msg.index
      · have heq := h.hash_eq hold hcheck hmsg hview hindex
        exact .inr ⟨msg, hindex ▸ hpre, hmsg.trans hview.symm, heq⟩
      · rw [cacheAt_prepared, if_neg (Ne.symm hindex)]
        exact h.locked m hold hview
    · exact .inr ⟨msg, hpre, hmsg, hnew.symm⟩
  · rcases sentVote_prepared hm with hold | ⟨-, rfl⟩ <;>
      rcases sentVote_prepared hm' with hold' | ⟨-, rfl⟩
    · exact h.unique m m' hold hold' hview hindex
    · rw [hnew]
      exact (h.hash_eq hold hcheck hmsg hview hindex).symm
    · rw [hnew]
      exact h.hash_eq hold' hcheck hmsg hview.symm hindex.symm
    · rfl

theorem preCommitted {index cache prePrepare} (hget : s.caches[index]? = some cache)
    (hready : cache.readyToPreCommit s.config = some prePrepare) :
    PrepareLock (s.preCommitted index cache prePrepare) := by
  have hsent {m}
      (hm : (s.preCommitted index cache prePrepare).SentVote .preparePacket m) :
      s.SentVote .preparePacket m :=
    (sentVote_preCommitted hm).resolve_right (by simp)
  have hconfig := s.preCommitted_config index cache prePrepare
  refine ⟨fun m hm => ?_, fun m hm hview => ?_, fun m m' hm hm' => h.unique m m' (hsent hm)
    (hsent hm')⟩
  · rw [hconfig]
    exact h.view m (hsent hm)
  · rw [hconfig] at hview ⊢
    rcases h.locked m (hsent hm) hview with hlt | ⟨p, hp, hrest⟩
    · exact .inl hlt
    right
    rw [cacheAt_preCommitted]
    split
    case isFalse => exact ⟨p, hp, hrest⟩
    next heq =>
      rw [← heq, cacheAt_eq hget, (readyToPreCommit_eq_some hready).1] at hp
      obtain rfl := some.inj hp
      exact ⟨_, preCommitted_prePrepare .., hrest⟩

theorem lockMove (hinv : CacheInv s.core) (hmove : LockMove currentView s t) : PrepareLock t := by
  cases hmove with
  | quiet hquiet => exact h.quiet hquiet
  | prepare _ _ hproposal hR hcheck => exact h.prepared hinv hproposal hR hcheck
  | preCommit _ _ _ hget hready => exact h.preCommitted hget hready

theorem lockMoves (hinv : CacheInv s.core) (hmoves : LockMoves currentView s t) :
    PrepareLock t := by
  induction hmoves with
  | refl => exact h
  | tail hmoves hmove ih => exact ih.lockMove (hinv.lockMoves hmoves) hmove

end

end PrepareLock

theorem PrepareLock.of_isInit (h : s.IsInit) : PrepareLock s := by
  obtain ⟨_, _, _, _, _, rfl⟩ := h
  constructor <;> simp [SentVote, init]

/-- No prepare equivocation, in runs where each pre-prepare that is voted for is of the node's view
and the expected checkpoint is not moved back. -/
theorem prepare_hash_unique (hs : s.IsInit) {inputs : List Input}
    (h : s.Along (fun s input => input.Meets currentView s ∧ input.KeepsCheckPoint s) inputs)
    {m m' : PBFTMessage} (hm : (s.run inputs).SentVote .preparePacket m)
    (hm' : (s.run inputs).SentVote .preparePacket m')
    (hview : m.view = m'.view) (hindex : m.index = m'.index) : m.hash = m'.hash := by
  have hrun : PrepareLock (s.run inputs) :=
    run_lockInvariant (fun hinv hlock => hlock.lockMoves hinv) hs (.of_isInit hs) h
  exact hrun.unique m m' hm hm' hview hindex

theorem startNode_isInit (nodeID) : (startNode nodeID).IsInit := ⟨_, _, _, _, _, rfl⟩

/-- The leader of block `3` sends pre-prepares of the two hashes, the second of them for a view. -/
def twoPrePrepares (view : Nat) : List Input :=
  [.message (.pbft (prePrepareOf 3 0 3 11)), .verified 0 true,
    .message (.pbft (prePrepareOf 3 view 3 12)), .verified 0 true]

theorem prepare_hash_unique_twoPrePrepares :
    ((startNode 0).run (twoPrePrepares 0)).SentVote .preparePacket
        (voteOf .preparePacket 0 0 3 11) ∧
      ∀ m, ((startNode 0).run (twoPrePrepares 0)).SentVote .preparePacket m →
        m.view = 0 → m.index = 3 → m.hash = 11 := by
  have hfirst : ((startNode 0).run (twoPrePrepares 0)).SentVote .preparePacket
      (voteOf .preparePacket 0 0 3 11) := by decide +kernel
  refine ⟨hfirst, fun m hm hview hindex => ?_⟩
  exact prepare_hash_unique (startNode_isInit 0) (by decide +kernel) hm hfirst hview hindex

/-- The second pre-prepare is of the next view, and it is answered in the current one. -/
theorem prepare_equivocation : ∃ m m' : PBFTMessage,
    ((startNode 0).run (twoPrePrepares 1)).SentVote .preparePacket m ∧
    ((startNode 0).run (twoPrePrepares 1)).SentVote .preparePacket m' ∧
    m.view = m'.view ∧ m.index = m'.index ∧ m.hash ≠ m'.hash := by
  refine ⟨voteOf .preparePacket 0 0 3 11, voteOf .preparePacket 0 0 3 12, ?_⟩
  decide +kernel

/-! ### Commits -/

def consistentProposal : Rules where
  handles _ msg := ∀ proposal ∈ msg.consensusProposal,
    proposal.index = msg.index ∧ proposal.hash = msg.hash
  counts _ := True

instance : ∀ view msg, Decidable (consistentProposal.handles view msg) :=
  fun _ msg => inferInstanceAs (Decidable (∀ proposal ∈ msg.consensusProposal, _))

instance : ∀ msg, Decidable (consistentProposal.counts msg) :=
  fun _ => isTrue trivial

/-- Each commit is held by the precommit of its index until that is executed, and from then on no
pre-prepare of another hash is left. -/
structure CommitLock (s : PBFTEngine) : Prop where
  consistent : ∀ i m, (s.core.cacheAt i).prePrepare = some m →
    ∀ proposal ∈ m.consensusProposal, proposal.index = m.index ∧ proposal.hash = m.hash
  locked : ∀ m, s.SentVote .commitPacket m → m.index < s.config.expectedCheckPoint ∨
    ∃ p, (s.core.cacheAt m.index).precommit = some p ∧ p.hash = m.hash
  agrees : ∀ m, s.SentVote .commitPacket m → ∀ p,
    (s.core.cacheAt m.index).prePrepare = some p → p.hash = m.hash
  unique : ∀ m m', s.SentVote .commitPacket m → s.SentVote .commitPacket m' →
    m.index = m'.index → m.hash = m'.hash

namespace CommitLock

section

variable (h : CommitLock s)

include h

theorem quiet (hq : Quiet s.core t.core) : CommitLock t where
  consistent i m hm := by
    rcases (hq.cache i).messages with ⟨hpre, -⟩ | ⟨-, hnone, -⟩
    · exact h.consistent i m (hpre ▸ hm)
    · rw [hnone] at hm; cases hm
  locked m hm := by
    rcases h.locked m (sentVote_quiet hq hm (.inr rfl)) with hlt | ⟨p, hp, hhash⟩
    · exact .inl (hlt.trans_le hq.expected)
    rcases (hq.cache m.index).messages with ⟨-, hcommit⟩ | ⟨hlt, -⟩
    · exact .inr ⟨p, hcommit.trans hp, hhash⟩
    · exact .inl hlt
  agrees m hm p hp := by
    rcases (hq.cache m.index).messages with ⟨hpre, -⟩ | ⟨-, hnone, -⟩
    · exact h.agrees m (sentVote_quiet hq hm (.inr rfl)) p (hpre ▸ hp)
    · rw [hnone] at hp; cases hp
  unique m m' hm hm' := h.unique m m' (sentVote_quiet hq hm (.inr rfl))
    (sentVote_quiet hq hm' (.inr rfl))

theorem prepared (hinv : CacheInv s.core) {msg proposal}
    (hR : consistentProposal.handles s.config.view msg) (hcheck : s.checkPrePrepareMsg msg = true) :
    CommitLock (s.prepared msg proposal) := by
  have hpre := hinv.prepared_prePrepare proposal hcheck
  have hother {i} (hi : msg.index ≠ i) :
      (s.prepared msg proposal).core.cacheAt i = s.core.cacheAt i := by
    rw [cacheAt_prepared, if_neg hi]
  have hsent {m} (hm : (s.prepared msg proposal).SentVote .commitPacket m) :
      s.SentVote .commitPacket m :=
    (sentVote_prepared hm).resolve_right (by simp)
  refine ⟨fun i m hm => ?_, fun m hm => ?_, fun m hm p hp => ?_,
    fun m m' hm hm' => h.unique m m' (hsent hm) (hsent hm')⟩
  · by_cases hi : msg.index = i
    · subst hi
      obtain rfl := some.inj (hpre.symm.trans hm)
      exact hR
    · exact h.consistent i m (hother hi ▸ hm)
  · have hlocked := h.locked m (hsent hm)
    rw [cacheAt_prepared]
    split
    case isFalse => exact hlocked
    next heq =>
      rw [(s.preparedCache_lock msg proposal).1, heq]
      exact hlocked
  · by_cases hi : msg.index = m.index
    · rw [← hi, hpre] at hp
      obtain rfl := some.inj hp
      -- The index is not executed yet, so the commit is held by a precommit.
      rcases h.locked m (hsent hm) with hlt | ⟨p, hp, hhash⟩
      · have hexpected := (checkPrePrepareMsg_spec hcheck).1
        exact absurd hlt (Nat.not_lt.mpr (hi ▸ hexpected))
      · rw [← hi] at hp
        exact (hinv.toHeldInv.hash_eq hcheck hp).trans hhash
    · exact h.agrees m (hsent hm) p (hother hi ▸ hp)

theorem commitReq_eq {index : Nat} {cache prePrepare m}
    (hget : s.caches[index]? = some cache) (hpre : cache.prePrepare = some prePrepare)
    (hreq : commitReq s.config (cache.precommitOf s.config prePrepare) = some m) :
    m.index = prePrepare.index ∧ m.hash = prePrepare.hash := by
  obtain ⟨_, hcommitted, rfl⟩ := map_eq_some_iff.mp hreq
  obtain ⟨proposal, hproposal, rfl⟩ := map_eq_some_iff.mp hcommitted
  exact h.consistent index prePrepare (cacheAt_eq hget ▸ hpre) proposal hproposal

theorem preCommitted (hinv : CacheInv s.core) {index cache prePrepare}
    (hget : s.caches[index]? = some cache)
    (hready : cache.readyToPreCommit s.config = some prePrepare) :
    CommitLock (s.preCommitted index cache prePrepare) := by
  obtain ⟨hpre, -⟩ := readyToPreCommit_eq_some hready
  have hindex := hinv.prePrepare_index hget hpre
  have hcache : (s.preCommitted index cache prePrepare).core.cacheAt index =
      cache.preCommitted s.config prePrepare := by
    rw [cacheAt_preCommitted, if_pos rfl]
  have hother {i} (hi : index ≠ i) :
      (s.preCommitted index cache prePrepare).core.cacheAt i = s.core.cacheAt i := by
    rw [cacheAt_preCommitted, if_neg hi]
  -- Every commit for the index has the hash of the pre-prepare, the old ones and the new one.
  have hhash {m}
      (hm : (s.preCommitted index cache prePrepare).SentVote .commitPacket m)
      (hi : index = m.index) : prePrepare.hash = m.hash := by
    rcases sentVote_preCommitted hm with hold | ⟨-, hreq⟩
    · exact h.agrees m hold prePrepare (hi ▸ cacheAt_eq hget ▸ hpre)
    · exact (h.commitReq_eq hget hpre hreq).2.symm
  have hold {m}
      (hm : (s.preCommitted index cache prePrepare).SentVote .commitPacket m)
      (hi : index ≠ m.index) : s.SentVote .commitPacket m := by
    rcases sentVote_preCommitted hm with hold | ⟨-, hreq⟩
    · exact hold
    · exact absurd (hindex.symm.trans (h.commitReq_eq hget hpre hreq).1.symm) hi
  refine ⟨fun i m hm => ?_, fun m hm => ?_, fun m hm p hp => ?_, fun m m' hm hm' heq => ?_⟩
  · by_cases hi : index = i
    · subst hi
      rw [hcache, preCommitted_prePrepare] at hm
      obtain rfl := some.inj hm
      intro proposal hproposal
      obtain ⟨proposal, hmem, rfl⟩ := map_eq_some_iff.mp hproposal
      exact h.consistent index prePrepare (cacheAt_eq hget ▸ hpre) proposal hmem
    · exact h.consistent i m (hother hi ▸ hm)
  · by_cases hi : index = m.index
    · rw [← hi, hcache]
      exact .inr ⟨_, preCommitted_precommit .., hhash hm hi⟩
    · rw [hother hi, preCommitted_config]
      exact h.locked m (hold hm hi)
  · by_cases hi : index = m.index
    · rw [← hi, hcache, preCommitted_prePrepare] at hp
      obtain rfl := some.inj hp
      exact hhash hm hi
    · exact h.agrees m (hold hm hi) p (hother hi ▸ hp)
  · by_cases hi : index = m.index
    · exact (hhash hm hi).symm.trans (hhash hm' (hi.trans heq))
    · exact h.unique m m' (hold hm hi) (hold hm' (heq ▸ hi)) heq

theorem lockMove (hinv : CacheInv s.core) (hmove : LockMove consistentProposal s t) :
    CommitLock t := by
  cases hmove with
  | quiet hquiet => exact h.quiet hquiet
  | prepare _ _ _ hR hcheck => exact h.prepared hinv hR hcheck
  | preCommit _ _ _ hget hready => exact h.preCommitted hinv hget hready

theorem lockMoves (hinv : CacheInv s.core) (hmoves : LockMoves consistentProposal s t) :
    CommitLock t := by
  induction hmoves with
  | refl => exact h
  | tail hmoves hmove ih => exact ih.lockMove (hinv.lockMoves hmoves) hmove

end

theorem of_isInit (h : s.IsInit) : CommitLock s := by
  obtain ⟨_, _, _, _, _, rfl⟩ := h
  constructor <;> simp [SentVote, init, Core.cacheAt, core]

end CommitLock

/-- No commit equivocation, in runs where the pre-prepares that are voted for have consistent
proposals and the expected checkpoint is not moved back. -/
theorem commit_hash_unique (hs : s.IsInit) {inputs : List Input}
    (h : s.Along (fun s input => input.Meets consistentProposal s ∧ input.KeepsCheckPoint s) inputs)
    {m m' : PBFTMessage} (hm : (s.run inputs).SentVote .commitPacket m)
    (hm' : (s.run inputs).SentVote .commitPacket m') (hindex : m.index = m'.index) :
    m.hash = m'.hash := by
  have hrun : CommitLock (s.run inputs) :=
    run_lockInvariant (fun hinv hlock => hlock.lockMoves hinv) hs (.of_isInit hs) h
  exact hrun.unique m m' hm hm' hindex

/-- Node `1` prepares, commits and executes a proposal in view `0`, with the votes of nodes `0`
and `2`. -/
def consensusOn (leader index : Nat) (hash executedHash : HashType) : List Input :=
  [.message (.pbft (prePrepareOf leader 0 index hash)), .verified 0 true,
    .message (.pbft (voteOf .preparePacket 0 0 index hash)),
    .message (.pbft (voteOf .preparePacket 2 0 index hash)),
    .message (.pbft (voteOf .commitPacket 0 0 index hash)),
    .message (.pbft (voteOf .commitPacket 2 0 index hash)),
    .executed 0 (some { index := index, hash := executedHash }), .applied]

theorem commit_hash_unique_consensusOn :
    ((startNode 1).run (consensusOn 3 3 11 111 ++ consensusOn 0 4 12 112)).SentVote .commitPacket
        (voteOf .commitPacket 1 0 4 12) ∧
      ∀ m, ((startNode 1).run (consensusOn 3 3 11 111 ++ consensusOn 0 4 12 112)).SentVote
        .commitPacket m → m.index = 4 → m.hash = 12 := by
  have hfirst : ((startNode 1).run (consensusOn 3 3 11 111 ++ consensusOn 0 4 12 112)).SentVote
      .commitPacket (voteOf .commitPacket 1 0 4 12) := by decide +kernel
  refine ⟨hfirst, fun m hm hindex => ?_⟩
  exact commit_hash_unique (startNode_isInit 1) (by decide +kernel) hm hfirst hindex

/-- Block `3` comes from the block sync after the node has executed block `4`, which drops the lock
of block `4` without committing it. -/
theorem commit_equivocation :
    ∃ s, (startNode 1).run (consensusOn 3 3 11 111 ++ consensusOn 0 4 12 112 ++
        [.newBlock (fourNodes 3 111)] ++ consensusOn 0 4 13 113) = s ∧
      ∃ m m' : PBFTMessage, s.SentVote .commitPacket m ∧ s.SentVote .commitPacket m' ∧
        s.config.committedProposal.index < 4 ∧ m.index = 4 ∧ m'.index = 4 ∧ m.hash ≠ m'.hash := by
  refine ⟨_, rfl, voteOf .commitPacket 1 0 4 12, voteOf .commitPacket 1 0 4 13, ?_⟩
  decide +kernel

end Loki.Fisco
