import Loki.Fisco.Certificates
import Loki.Fisco.Equivocation

/-!
# What is executed

A proposal is executed once its cache has collected a quorum of commit messages.  If every commit
message that is counted has been sent as one, and every pre-prepare that is voted for encodes the
block its header names, each proposal on its way through the queues of the node has a quorum of
commits for the block it encodes.  Proposals that are fetched from a peer enter the queue without
any such quorum.
-/

namespace Loki.Fisco

open Finset Option List.Subset List PBFTConfig PBFTCache OrderedMap VoteCache

/-! ### Commit messages of one cache -/

/-- The cached commits of an index come from nodes of which a predicate holds. -/
structure CommitsVoted (nodes : List ConsensusNode) (V : Nat → Nat → HashType → Prop) (index : Nat)
    (votes : VoteCache) : Prop where
  exact : votes.Exact nodes
  voted : ∀ req ∈ votes.cachedReq, req.index = index ∧ req.generatedFrom < nodes.length ∧
    V req.generatedFrom index req.hash

namespace CommitsVoted

variable {nodes : List ConsensusNode} {config : PBFTConfig} {V V' : Nat → Nat → HashType → Prop}
  {index : Nat} {votes : VoteCache} {msg : PBFTMessage}

theorem empty : CommitsVoted nodes V index {} where
  exact := .empty nodes
  voted := by simp

theorem mono (h : CommitsVoted nodes V index votes)
    (hV : ∀ i index hash, V i index hash → V' i index hash) :
    CommitsVoted nodes V' index votes where
  exact := h.exact
  voted req hreq := by
    obtain ⟨hindex, hlt, hvoted⟩ := h.voted req hreq
    exact ⟨hindex, hlt, hV _ _ _ hvoted⟩

section

variable (h : CommitsVoted config.consensusNodeList V index votes)

include h

theorem addCache (hmsg : msg.index = index → V msg.generatedFrom index msg.hash) :
    CommitsVoted config.consensusNodeList V index (votes.addCache config index msg) where
  exact := h.exact.addCache index msg
  voted req hreq := by
    rcases addCache_cases config index votes msg with ⟨heq, -⟩ | ⟨hindex, -, hlt, heq⟩
    · rw [heq] at hreq
      exact h.voted req hreq
    · rw [heq, (List.perm_orderedInsert _ _ _).mem_iff, List.mem_cons] at hreq
      rcases hreq with rfl | hreq
      · exact ⟨hindex, hlt, hmsg hindex⟩
      · exact h.voted req hreq

theorem resetCacheAfterViewChange (curView : Nat) : CommitsVoted config.consensusNodeList V index
      (votes.resetCacheAfterViewChange config curView) where
  exact := h.exact.resetCacheAfterViewChange curView
  voted req hreq := h.voted req (mem_filter.mp hreq).1

theorem exists_quorum {hash} (hcollect : votes.collectEnoughQuorum config hash = true) :
    ∃ S, config.IsQuorum S ∧ ∀ i ∈ S, V i index hash := by
  have hmem {i} (hi : i ∈ (votes.senders hash).toFinset) :
      ∃ req ∈ votes.cachedReq, req.hash = hash ∧ req.generatedFrom = i := by
    simpa [senders, and_assoc] using hi
  refine ⟨(votes.senders hash).toFinset, ⟨fun i hi => ?_, ?_⟩, fun i hi => ?_⟩
  · obtain ⟨req, hreq, -, rfl⟩ := hmem hi
    exact (h.voted req hreq).2.1
  · unfold collectEnoughQuorum at hcollect
    cases hweight : votes.weightInfo[hash]? with
    | none => simp [hweight] at hcollect
    | some weight =>
      have hexact := h.exact.weight hash
      rw [hweight, getD_some] at hexact
      rw [hweight] at hcollect
      calc config.minRequiredQuorum ≤ weight := of_decide_eq_true hcollect
        _ = ((votes.senders hash).map (nodeWeight config.consensusNodeList)).sum % uint64 := hexact
        _ ≤ ((votes.senders hash).map (nodeWeight config.consensusNodeList)).sum :=
            Nat.mod_le _ _
        _ = ∑ i ∈ (votes.senders hash).toFinset, nodeWeight config.consensusNodeList i :=
            (sum_toFinset _ (h.exact.nodup hash)).symm
  · obtain ⟨req, hreq, rfl, rfl⟩ := hmem hi
    exact (h.voted req hreq).2.2

end

end CommitsVoted

variable (E : Nat → HashType → Option BlockHeader → Prop) (sentCommit : Nat → Nat → HashType → Prop)
  (s : PBFTEngine) (i index : Nat) (hash : HashType) (proposal : PBFTProposal)

/-- The proposal of a message has the index and the hash of its header, and data of which a
predicate holds. -/
def PBFTMessage.Complete (msg : PBFTMessage) : Prop :=
  ∀ proposal ∈ msg.consensusProposal, proposal.index = msg.index ∧ proposal.hash = msg.hash ∧
    E msg.index msg.hash proposal.data

instance (E : Nat → HashType → Option BlockHeader → Prop)
    [∀ index hash data, Decidable (E index hash data)] (msg : PBFTMessage) :
    Decidable (msg.Complete E) :=
  inferInstanceAs (Decidable (∀ proposal ∈ msg.consensusProposal, _))

def EncodesBlock (data : Option BlockHeader) : Prop :=
  data = some ⟨index, hash⟩

instance (index : Nat) (hash : HashType) (data : Option BlockHeader) :
    Decidable (EncodesBlock index hash data) :=
  inferInstanceAs (Decidable (_ = _))

structure CacheVoted (E : Nat → HashType → Option BlockHeader → Prop) (nodes : List ConsensusNode)
    (V : Nat → Nat → HashType → Prop) (index : Nat) (cache : PBFTCache) : Prop where
  index_eq : cache.index = index
  commits : CommitsVoted nodes V index cache.commitCacheList
  prePrepare : ∀ msg ∈ cache.prePrepare, msg.Complete E
  precommit : ∀ msg ∈ cache.precommit, msg.Complete E

namespace CacheVoted

variable {E : Nat → HashType → Option BlockHeader → Prop} {nodes : List ConsensusNode}
  {config : PBFTConfig} {V V' : Nat → Nat → HashType → Prop}
  {index : Nat} {cache : PBFTCache} {msg : PBFTMessage}

theorem new : CacheVoted E nodes V index { index := index } where
  index_eq := rfl
  commits := .empty
  prePrepare := by simp
  precommit := by simp

theorem mono (h : CacheVoted E nodes V index cache)
    (hV : ∀ i index hash, V i index hash → V' i index hash) : CacheVoted E nodes V' index cache :=
  { h with commits := h.commits.mono hV }

theorem addPrePrepareCache (h : CacheVoted E nodes V index cache) (hmsg : msg.Complete E) :
    CacheVoted E nodes V index (cache.addPrePrepareCache msg) := by
  rcases addPrePrepareCache_cases cache msg with ⟨heq, -⟩ | heq
  · rw [heq]
    exact h
  · rw [heq]
    exact { h with prePrepare := fun m hm => some.inj hm ▸ hmsg }

theorem addCommitCache (h : CacheVoted E config.consensusNodeList V index cache)
    (hmsg : msg.index = index → V msg.generatedFrom index msg.hash) :
    CacheVoted E config.consensusNodeList V index (cache.addCommitCache config msg) where
  index_eq := h.index_eq
  commits := by
    have hcommits := h.commits.addCache hmsg
    rw [← h.index_eq] at hcommits ⊢
    exact hcommits
  prePrepare := h.prePrepare
  precommit := h.precommit

theorem preCommitted (h : CacheVoted E config.consensusNodeList V index cache)
    (hpre : cache.prePrepare = some msg)
    (hreq : ∀ m, commitReq config (cache.precommitOf config msg) = some m →
      m.index = index → V m.generatedFrom index m.hash) :
    CacheVoted E config.consensusNodeList V index (cache.preCommitted config msg) := by
  have hcomplete : (cache.precommitOf config msg).Complete E := by
    intro _ hproposal
    obtain ⟨old, hold, rfl⟩ := map_eq_some_iff.mp hproposal
    exact h.prePrepare msg hpre old hold
  have hinto : CacheVoted E config.consensusNodeList V index (cache.intoPrecommit config msg) :=
    { h with
      prePrepare := fun m hm => some.inj hm ▸ hcomplete
      precommit := fun m hm => some.inj hm ▸ hcomplete }
  unfold PBFTCache.preCommitted
  split
  · exact { hinto with }
  next m hm =>
    have hadd := hinto.addCommitCache (hreq m hm)
    exact ⟨hadd.index_eq, hadd.commits, hadd.prePrepare, hadd.precommit⟩

end CacheVoted

/-! ### From the votes to the execution -/

namespace PBFTEngine

def Voted : Prop :=
  sentCommit i index hash ∨
    i = s.config.nodeIndex ∧ ∃ m, s.SentVote .commitPacket m ∧ m.index = index ∧ m.hash = hash

/-- The proposal encodes the block that it names, and a quorum has sent commits for that block. -/
def Certified : Prop :=
  E proposal.index proposal.hash proposal.data ∧
    ∃ S, s.config.IsQuorum S ∧ ∀ i ∈ S, s.Voted sentCommit i proposal.index proposal.hash

def Pending : Prop :=
  proposal ∈ s.committedQueue ∨ (∃ lastApplied, (lastApplied, proposal) ∈ s.applying) ∨
    ∃ executed, (proposal, executed) ∈ s.finished

end PBFTEngine

open PBFTEngine

variable {E : Nat → HashType → Option BlockHeader → Prop}
  {sentCommit : Nat → Nat → HashType → Prop} {s t : PBFTEngine} {config config' : PBFTConfig}

structure KeepsCache (nodes : List ConsensusNode) (i : Nat) (c c' : PBFTCache) : Prop where
  messages : SameMessages True c c'
  voted : ∀ E V, CacheVoted E nodes V i c → CacheVoted E nodes V i c'

theorem KeepsCache.of_eq {nodes i} {c c' : PBFTCache} (hindex : c'.index = c.index)
    (hcommits : c'.commitCacheList = c.commitCacheList) (hprePrepare : c'.prePrepare = c.prePrepare)
    (hprecommit : c'.precommit = c.precommit) : KeepsCache nodes i c c' where
  messages := .inl ⟨hprePrepare, hprecommit⟩
  voted _ _ h := ⟨hindex.trans h.index_eq, hcommits ▸ h.commits, hprePrepare ▸ h.prePrepare,
    hprecommit ▸ h.precommit⟩

/-- The node is the same, and all that it had sent stays sent. -/
structure SameNode (s t : PBFTEngine) : Prop where
  nodeList : t.config.consensusNodeList = s.config.consensusNodeList
  nodeID : t.config.nodeID = s.config.nodeID
  sent : s.sent ⊆ t.sent

theorem SameNode.of_config_eq (hconfig : t.config = s.config) (hsent : s.sent ⊆ t.sent) :
    SameNode s t :=
  ⟨by rw [hconfig], by rw [hconfig], hsent⟩

structure Keeps (s t : PBFTEngine) : Prop extends SameNode s t where
  ordered : s.core.Ordered → t.core.Ordered
  caches : ∀ i, KeepsCache s.config.consensusNodeList i (s.core.cacheAt i) (t.core.cacheAt i)
  pending : ∀ proposal, t.Pending proposal → s.Pending proposal

/-- Each pending proposal is certified, by the commits that the caches hold. -/
structure ExecInv (E : Nat → HashType → Option BlockHeader → Prop)
    (sentCommit : Nat → Nat → HashType → Prop) (s : PBFTEngine) : Prop where
  held : HeldInv s.core
  caches : ∀ i, CacheVoted E s.config.consensusNodeList (s.Voted sentCommit) i (s.core.cacheAt i)
  pending : ∀ proposal, s.Pending proposal → s.Certified E sentCommit proposal

theorem PBFTEngine.nodeIndex_congr (hnodes : config'.consensusNodeList = config.consensusNodeList)
    (hnodeID : config'.nodeID = config.nodeID) : config'.nodeIndex = config.nodeIndex := by
  simp [nodeIndex, hnodes, hnodeID]

theorem PBFTEngine.Voted.mono (hsame : SameNode s t) (i index : Nat) (hash : HashType)
    (h : s.Voted sentCommit i index hash) : t.Voted sentCommit i index hash := by
  rcases h with h | ⟨hi, m, hm, hrest⟩
  · exact .inl h
  · exact .inr ⟨hi.trans (nodeIndex_congr hsame.nodeList hsame.nodeID).symm, m,
      ⟨hsame.sent hm.1, hm.2⟩, hrest⟩

theorem PBFTConfig.isQuorum_congr {S}
    (hnodes : config'.consensusNodeList = config.consensusNodeList) :
    config'.IsQuorum S ↔ config.IsQuorum S := by
  simp [IsQuorum, minRequiredQuorum, maxFaultyQuorum, totalQuorum, hnodes]

theorem PBFTEngine.Certified.mono (hsame : SameNode s t) {proposal}
    (h : s.Certified E sentCommit proposal) : t.Certified E sentCommit proposal := by
  obtain ⟨hdata, S, hS, hvoted⟩ := h
  exact ⟨hdata, S, (isQuorum_congr hsame.nodeList).mpr hS, fun i hi => (hvoted i hi).mono hsame⟩

namespace ExecInv

theorem keeps (h : ExecInv E sentCommit s) (hk : Keeps s t) : ExecInv E sentCommit t where
  held := h.held.of_caches (hk.ordered h.held.ordered) fun i => (hk.caches i).messages
  caches i := by
    rw [hk.nodeList]
    exact ((hk.caches i).voted _ _ (h.caches i)).mono (Voted.mono hk.toSameNode)
  pending proposal hp := (h.pending proposal (hk.pending proposal hp)).mono hk.toSameNode

end ExecInv

namespace Keeps

theorem of_caches_eq (hsame : SameNode s t) (hordered : s.core.Ordered → t.core.Ordered)
    (hcaches : t.caches = s.caches)
    (hpending : ∀ proposal, t.Pending proposal → s.Pending proposal) : Keeps s t where
  toSameNode := hsame
  ordered := hordered
  caches i := by
    simp only [Core.cacheAt, core, hcaches]
    exact .of_eq rfl rfl rfl rfl
  pending := hpending

theorem of_calm (h : Calm s t) : Keeps s t where
  nodeList := h.consensusNodeList
  nodeID := h.nodeID
  ordered := (Quiet.of_calm h).ordered
  sent := h.sent
  caches i := by
    obtain ⟨hindex, hprePrepare, hprecommit, hcommits, -⟩ := h.caches i
    refine ⟨.inl ⟨hprePrepare, hprecommit⟩, fun _ _ hvoted => ?_⟩
    refine ⟨hindex.trans hvoted.index_eq, ?_, hprePrepare ▸ hvoted.prePrepare,
      hprecommit ▸ hvoted.precommit⟩
    rcases hcommits with heq | ⟨view, heq⟩
    · exact heq ▸ hvoted.commits
    · exact heq ▸ hvoted.commits.resetCacheAfterViewChange view
  pending proposal hp := by
    rw [Pending, h.applying, h.finished_eq] at hp
    exact hp.imp_left fun hmem => h.committedQueue hmem

theorem of_config_eq (hconfig : t.config = s.config) (hsent : s.sent ⊆ t.sent)
    (hcaches : t.caches = s.caches)
    (hpending : ∀ proposal, t.Pending proposal → s.Pending proposal) : Keeps s t := by
  refine of_caches_eq (.of_config_eq hconfig hsent) ?_ hcaches hpending
  simp [Core.Ordered, core, hconfig]

variable {index : Nat}

theorem filterCaches (keep : Nat → PBFTCache → Bool) :
    Keeps s { s with caches := s.caches.filter keep } := by
  refine ⟨⟨rfl, rfl, refl _⟩, id, fun i => ?_, fun _ hp => hp⟩
  rcases s.cacheAt_filter keep i with heq | ⟨heq, -⟩
  · rw [heq]
    exact .of_eq rfl rfl rfl rfl
  · rw [heq]
    exact ⟨.inr ⟨trivial, rfl, rfl⟩, fun _ _ _ => .new⟩

theorem eraseExecutedProposal (hash : HashType) : Keeps s (s.eraseExecutedProposal hash) :=
  of_config_eq rfl (refl _) rfl fun _ hp => hp

end Keeps

variable (E sentCommit)

/-- The pre-prepares that are voted for encode their blocks, and the commits that are counted have
been sent. -/
def commitsSent : Rules where
  handles _ msg := msg.Complete E
  counts msg := sentCommit msg.generatedFrom msg.index msg.hash

variable {E sentCommit}

instance [∀ index hash data, Decidable (E index hash data)] :
    ∀ view msg, Decidable ((commitsSent E sentCommit).handles view msg) :=
  fun _ msg => inferInstanceAs (Decidable (msg.Complete E))

instance [∀ i index hash, Decidable (sentCommit i index hash)] :
    ∀ msg, Decidable ((commitsSent E sentCommit).counts msg) :=
  fun msg => inferInstanceAs (Decidable (sentCommit msg.generatedFrom msg.index msg.hash))

namespace ExecInv

section

variable (h : ExecInv E sentCommit s)

include h

theorem setCache {index c'} (hconfig : t.config = s.config)
    (hsent : s.sent ⊆ t.sent)
    (hcaches : ∀ i, t.core.cacheAt i = if index = i then c' else s.core.cacheAt i)
    (hpending : ∀ proposal, t.Pending proposal → s.Pending proposal) (hheld : HeldInv t.core)
    (hvoted : CacheVoted E t.config.consensusNodeList (t.Voted sentCommit) index c') :
    ExecInv E sentCommit t where
  held := hheld
  caches i := by
    rw [hcaches]
    split
    next heq => exact heq ▸ hvoted
    · rw [hconfig]
      exact (h.caches i).mono (Voted.mono (.of_config_eq hconfig hsent))
  pending proposal hp :=
    (h.pending proposal (hpending proposal hp)).mono (.of_config_eq hconfig hsent)

theorem prepared {msg} (proposal) (hmsg : msg.Complete E)
    (hcheck : s.checkPrePrepareMsg msg = true) :
    ExecInv E sentCommit (s.prepared msg proposal) := by
  have hadd := (h.caches msg.index).addPrePrepareCache hmsg
  have hsent : s.sent ⊆ (s.prepared msg proposal).sent := subset_cons_self _ _
  refine h.setCache rfl hsent (s.cacheAt_prepared msg proposal) (fun _ hp => hp)
    (h.held.prepared proposal hcheck) ?_
  exact CacheVoted.mono ⟨hadd.index_eq, hadd.commits, hadd.prePrepare, hadd.precommit⟩
    (Voted.mono ⟨rfl, rfl, hsent⟩)

theorem preCommitted {index cache prePrepare} (hget : s.caches[index]? = some cache)
    (hready : cache.readyToPreCommit s.config = some prePrepare) :
    ExecInv E sentCommit (s.preCommitted index cache prePrepare) := by
  obtain ⟨hpre, -⟩ := readyToPreCommit_eq_some hready
  have hconfig := s.preCommitted_config index cache prePrepare
  have hsent : s.sent ⊆ (s.preCommitted index cache prePrepare).sent := by
    unfold PBFTEngine.preCommitted
    split
    · exact refl _
    · exact subset_cons_self _ _
  refine h.setCache hconfig hsent (cacheAt_preCommitted index cache prePrepare)
    (fun _ hp => ?_) (h.held.preCommitted hget hready) ?_
  · unfold PBFTEngine.preCommitted at hp
    split at hp <;> exact hp
  · have hmono : ∀ i n hash, s.Voted sentCommit i n hash →
        (s.preCommitted index cache prePrepare).Voted sentCommit i n hash :=
      Voted.mono (.of_config_eq hconfig hsent)
    have hold := (h.caches index).mono hmono
    rw [cacheAt_eq hget] at hold
    rw [hconfig]
    refine hold.preCommitted hpre fun m hm hindex => .inr ?_
    obtain ⟨_, _, rfl⟩ := map_eq_some_iff.mp hm
    refine ⟨by rw [hconfig]; rfl, _, ⟨?_, rfl⟩, hindex, rfl⟩
    unfold PBFTEngine.preCommitted
    rw [hm]
    exact mem_cons_self

theorem addCommitReq {msg} (hmsg : sentCommit msg.generatedFrom msg.index msg.hash) :
    ExecInv E sentCommit (s.addCommitReq msg) := by
  have hadd := (h.caches msg.index).addCommitCache fun _ => .inl hmsg
  have hquiet : Quiet s.core (s.addCommitReq msg).core :=
    Quiet.setCache ⟨.inl ⟨rfl, rfl⟩, .inl⟩
  exact h.setCache rfl (refl _) (cacheAt_setCache _ _) (fun _ hp => hp) (h.held.quiet hquiet) hadd

end

variable {proposal : PBFTProposal} {ledgerConfig : LedgerConfig}

section

variable (h : ExecInv E sentCommit s)

include h

theorem certified_of_decided (hdecided : s.Decided proposal) :
    s.Certified E sentCommit proposal := by
  obtain ⟨index, cache, precommit, hget, hpre, hproposal, _, hcollect⟩ := hdecided
  have hcache := h.caches index
  have hheld := h.held.held index
  rw [cacheAt_eq hget] at hcache hheld
  obtain ⟨hindex, _, hprePrepare, hhash⟩ := hheld.precommit precommit hpre
  obtain ⟨hpindex, hphash, hdata⟩ := hcache.precommit precommit hpre proposal hproposal
  rw [← hpindex, ← hphash] at hdata
  have henough : cache.commitCacheList.collectEnoughQuorum s.config proposal.hash = true := by
    simp only [collectEnoughCommitReq, collectEnough, hprePrepare, Bool.and_eq_true] at hcollect
    rw [hphash, ← hhash]
    exact hcollect.2
  obtain ⟨S, hS, hvoted⟩ := hcache.commits.exists_quorum henough
  refine ⟨hdata, S, hS, fun i hi => ?_⟩
  rw [hpindex, hindex]
  exact hvoted i hi

theorem enqueue (hcertified : s.Certified E sentCommit proposal) :
    ExecInv E sentCommit { s with committedQueue := s.committedQueue ++ [proposal] } := by
  refine ⟨h.held.quiet (Quiet.of_config_eq rfl rfl rfl), h.caches, ?_⟩
  rintro other (hmem | hrest)
  · rcases mem_append.mp hmem with hmem | hmem
    · exact h.pending other (.inl hmem)
    · exact List.mem_singleton.mp hmem ▸ hcertified
  · exact h.pending other (.inr hrest)

theorem move (hmove : Move (commitsSent E sentCommit) s t) : ExecInv E sentCommit t := by
  cases hmove with
  | calm hcalm => exact h.keeps (.of_calm hcalm)
  | prepare _ proposal _ hR hcheck => exact h.prepared proposal hR hcheck
  | preCommit _ _ _ hget hready => exact h.preCommitted hget hready
  | commitVote _ hR => exact h.addCommitReq hR
  | resend => exact h.keeps (.of_config_eq rfl (subset_cons_self _ _) rfl fun _ hp => hp)
  | enqueue _ hdecided => exact h.enqueue (h.certified_of_decided hdecided)
  | apply _ _ _ hqueue hmem =>
    refine h.keeps (.of_config_eq rfl (refl _) rfl ?_)
    rintro _ (hother | ⟨last, hother⟩ | hrest)
    · exact .inl (hqueue hother)
    · rcases mem_append.mp hother with hother | hother
      · exact .inr (.inl ⟨last, hother⟩)
      · obtain ⟨-, rfl⟩ := Prod.mk.inj (List.mem_singleton.mp hother)
        exact .inl hmem
    · exact .inr (.inr hrest)
  | expire | enqueueStable | store =>
    exact h.keeps (.of_config_eq rfl (refl _) rfl fun _ hp => hp)

theorem moves (hmoves : Moves (commitsSent E sentCommit) s t) : ExecInv E sentCommit t := by
  induction hmoves with
  | refl => exact h
  | tail _ hmove ih => exact ih.move hmove

theorem setExpectedCheckPoint (index : Nat) :
    ExecInv E sentCommit (s.setConfig (s.config.setExpectedCheckPoint index)) := by
  refine h.keeps (.of_caches_eq ⟨rfl, rfl, refl _⟩ (fun hordered => ?_) rfl fun _ hp => hp)
  exact ⟨hordered.1, hordered.1.trans_le (Nat.le_max_left _ _)⟩

theorem updateCommitQueue (hcertified : s.Certified E sentCommit proposal) :
    ExecInv E sentCommit (s.updateCommitQueue proposal) := by
  rcases s.updateCommitQueue_moves proposal with heq | hmoves
  · rw [heq]
    exact h
  · exact (h.enqueue hcertified).moves hmoves

theorem onExecuteFinished (position : Nat) (executed : Option PBFTProposal) :
    ExecInv E sentCommit (s.onExecuteFinished position executed) := by
  unfold PBFTEngine.onExecuteFinished
  split
  · exact h
  next lastApplied proposal hget =>
    have hmem : (lastApplied, proposal) ∈ s.applying := mem_of_getElem? hget
    dsimp only
    split
    all_goals
      refine h.keeps (.of_config_eq rfl (refl _) rfl ?_)
      rintro _ (hother | ⟨last, hother⟩ | ⟨result, hother⟩)
    · exact .inl hother
    · exact .inr (.inl ⟨last, mem_of_mem_eraseIdx hother⟩)
    · exact .inr (.inr ⟨result, hother⟩)
    · exact .inl hother
    · exact .inr (.inl ⟨last, mem_of_mem_eraseIdx hother⟩)
    · rcases mem_append.mp hother with hother | hother
      · exact .inr (.inr ⟨result, hother⟩)
      · obtain ⟨rfl, -⟩ := Prod.mk.inj (List.mem_singleton.mp hother)
        exact .inr (.inl ⟨lastApplied, hmem⟩)

theorem onProposalApplyFailed (hcertified : s.Certified E sentCommit proposal) :
    ExecInv E sentCommit (s.onProposalApplyFailed proposal) := by
  refine ExecInv.keeps ?_ (.eraseExecutedProposal proposal.hash)
  apply setExpectedCheckPoint
  split
  · exact (h.keeps (.eraseExecutedProposal proposal.hash)).updateCommitQueue
      (hcertified.mono ⟨rfl, rfl, refl _⟩)
  · exact h

theorem recordExecuted (executed : PBFTProposal) :
    ExecInv E sentCommit (s.recordExecuted executed) := by
  refine h.keeps ⟨⟨rfl, rfl, subset_cons_self _ _⟩, fun hordered => ?_, fun i => ?_, fun _ hp => hp⟩
  · exact ⟨hordered.1, hordered.1.trans_le (Nat.le_max_left _ _)⟩
  · rw [cacheAt_recordExecuted]
    split
    case isFalse => exact .of_eq rfl rfl rfl rfl
    next heq =>
      subst heq
      rcases PBFTCache.setCheckPointProposal_cases s.config _ executed with heq | heq
      · rw [heq]
        exact .of_eq rfl rfl rfl rfl
      · rw [heq]
        exact .of_eq rfl rfl rfl rfl

theorem onProposalApplySuccess (proposal executed : PBFTProposal) :
    ExecInv E sentCommit (s.onProposalApplySuccess proposal executed) := by
  have hstable := (h.recordExecuted executed).moves
    (checkAndCommitStableCheckPoint_moves.trans tryToApplyCommitQueue_moves)
  exact hstable.keeps (.eraseExecutedProposal proposal.hash)

theorem onProposalApplied : ExecInv E sentCommit s.onProposalApplied := by
  unfold PBFTEngine.onProposalApplied
  split
  · exact h
  next proposal executed finished hfinished =>
    have hcertified := h.pending proposal (.inr (.inr ⟨executed, by simp [hfinished]⟩))
    have hnext : ExecInv E sentCommit { s with finished := finished } := by
      refine h.keeps (.of_config_eq rfl (refl _) rfl ?_)
      rintro _ (hother | hother | ⟨result, hother⟩)
      · exact .inl hother
      · exact .inr (.inl hother)
      · exact .inr (.inr ⟨result, by simp [hfinished, hother]⟩)
    cases executed with
    | none => exact hnext.onProposalApplyFailed (hcertified.mono ⟨rfl, rfl, refl _⟩)
    | some executed => exact hnext.onProposalApplySuccess proposal executed

theorem resetConfig (hnodes : ledgerConfig.consensusNodeList = s.config.consensusNodeList) :
    ExecInv E sentCommit (s.setConfig (s.config.resetConfig ledgerConfig)) := by
  refine h.keeps (.of_caches_eq ⟨?_, ?_, refl _⟩ (fun hordered => ?_) rfl fun _ hp => hp)
  · simp only [setConfig, PBFTConfig.resetConfig]
    split
    · rfl
    · exact hnodes
  · simp only [setConfig, PBFTConfig.resetConfig]
    split <;> rfl
  · obtain ⟨hprogressed, hexpected, -, -⟩ :=
      resetConfig_ordered ledgerConfig hordered.1 hordered.2
    exact ⟨hprogressed, hexpected⟩

theorem removeFutureProposals : ExecInv E sentCommit s.removeFutureProposals := by
  have hdrop := h.keeps (.filterCaches fun index cache =>
    !(s.config.committedProposal.index ≤ index && cache.checkpointProposal.isSome))
  refine (hdrop.setExpectedCheckPoint (s.config.committedProposal.index + 1)).keeps
    (.of_config_eq rfl (refl _) rfl ?_)
  rintro _ (hother | hrest)
  · simp [PBFTEngine.removeFutureProposals] at hother
  · exact .inr hrest

theorem finalizeConsensus (hnodes : ledgerConfig.consensusNodeList = s.config.consensusNodeList)
    (syncedBlock : Bool) : ExecInv E sentCommit (s.finalizeConsensus ledgerConfig syncedBlock) := by
  have happly := (h.resetConfig hnodes).moves tryToApplyCommitQueue_moves
  simp only [PBFTEngine.finalizeConsensus]
  generalize (s.setConfig (s.config.resetConfig ledgerConfig)).tryToApplyCommitQueue.1 = s₁
    at happly ⊢
  have hdrop : ExecInv E sentCommit
      (s₁.removeConsensusedCache s₁.config.view ledgerConfig.blockNumber) :=
    (happly.keeps (.filterCaches fun index cache =>
      ledgerConfig.blockNumber < index && !cache.stableCommitted)).moves (Moves.aux rfl)
  have hstable := hdrop.moves (tryToCommitStableCheckPoint_moves.trans resetTimer_moves)
  cases syncedBlock with
  | false => exact hstable
  | true => exact hstable.removeFutureProposals

end

end ExecInv

def Input.KeepsVoters (s : PBFTEngine) : Input → Prop
  | .committed (some ledgerConfig) | .newBlock ledgerConfig =>
    ledgerConfig.consensusNodeList = s.config.consensusNodeList
  | .loaded _ true => False
  | _ => True

instance {s : PBFTEngine} : ∀ input, Decidable (Input.KeepsVoters s input)
  | .committed (some _) | .newBlock _ => inferInstanceAs (Decidable (_ = _))
  | .loaded _ true => isFalse id
  | .message _ | .proposal .. | .verified .. | .precommitResponse .. | .committedResponse ..
  | .loaded _ false | .timeout | .executed .. | .applied | .checkPointTimeout _ | .committed none
  | .syncing _ | .connected _ => isTrue trivial

namespace ExecInv

theorem step (h : ExecInv E sentCommit s) {input}
    (hmeets : input.Meets (commitsSent E sentCommit) s) (hkeeps : input.KeepsVoters s) :
    ExecInv E sentCommit (s.step input) := by
  cases input with
  | executed position executed => exact h.onExecuteFinished position executed
  | applied => exact h.onProposalApplied
  | loaded _ verifyResult =>
    cases verifyResult with
    | true => cases hkeeps
    | false =>
      simp only [PBFTEngine.step, PBFTEngine.onLoadAndVerifyProposal]
      split
      · exact h
      · exact h.moves (Moves.aux rfl)
  | committed ledgerConfig =>
    simp only [PBFTEngine.step, PBFTEngine.onStableCheckPointCommitted]
    split
    · exact h
    next _ committing _ =>
      have hnext : ExecInv E sentCommit { s with committing := committing } :=
        h.keeps (.of_config_eq rfl (refl _) rfl fun _ hp => hp)
      cases ledgerConfig with
      | none => exact hnext
      | some =>
        refine hnext.finalizeConsensus ?_ false
        exact hkeeps
  | newBlock =>
    simp only [PBFTEngine.step, PBFTEngine.asyncNotifyNewBlock]
    split
    · exact h.finalizeConsensus hkeeps true
    · exact h
  | _ => exact h.moves (step_moves hmeets trivial)

theorem of_isInit (h : s.IsInit) : ExecInv E sentCommit s where
  held := .of_isInit h
  caches i := by
    rw [h.cacheAt]
    exact .new
  pending proposal hp := by
    obtain ⟨_, _, _, _, _, rfl⟩ := h
    simp [Pending, init] at hp

end ExecInv

/-- What is executed is what was voted, in runs where no fetched proposal enters the queue, the
pre-prepares that are voted for encode their blocks, and the commits that are counted have been
sent as commits. -/
theorem executed_was_voted (hs : s.IsInit) {inputs : List Input} (h : s.Along (fun s input =>
      input.Meets (commitsSent EncodesBlock sentCommit) s ∧ input.KeepsVoters s) inputs)
        {lastApplied proposal : PBFTProposal}
    (hp : (lastApplied, proposal) ∈ (s.run inputs).applying) :
    ∃ header, proposal.data = some header ∧ ∃ S, (s.run inputs).config.IsQuorum S ∧
      ∀ i ∈ S, (s.run inputs).Voted sentCommit i header.number header.hash := by
  have hrun : ExecInv EncodesBlock sentCommit (s.run inputs) :=
    h.invariant (fun s _ hs hC => hs.step hC.1 hC.2) (.of_isInit hs)
  obtain ⟨hdata, hquorum⟩ := hrun.pending proposal (.inr (.inl ⟨lastApplied, hp⟩))
  exact ⟨_, hdata, hquorum⟩

/-- Nodes `0` and `2` have sent commits for block `3`. -/
def commitsOfTwoNodes : Prop := (i = 0 ∨ i = 2) ∧ index = 3 ∧ hash = 11

instance (i index : Nat) (hash : HashType) : Decidable (commitsOfTwoNodes i index hash) :=
  inferInstanceAs (Decidable (_ ∧ _))

theorem executed_was_voted_consensusOn : ∃ lastApplied proposal,
    (lastApplied, proposal) ∈ ((startNode 1).run ((consensusOn 3 3 11 111).take 6)).applying ∧
    ∃ header, proposal.data = some header ∧
      ∃ S, ((startNode 1).run ((consensusOn 3 3 11 111).take 6)).config.IsQuorum S ∧
        ∀ i ∈ S, ((startNode 1).run ((consensusOn 3 3 11 111).take 6)).Voted commitsOfTwoNodes i
          header.number header.hash := by
  have happlying : 0 < ((startNode 1).run ((consensusOn 3 3 11 111).take 6)).applying.length := by
    decide +kernel
  obtain ⟨⟨lastApplied, proposal⟩, hmem⟩ := exists_mem_of_length_pos happlying
  exact ⟨lastApplied, proposal, hmem,
    executed_was_voted (startNode_isInit 1) (by decide +kernel) hmem⟩

/-- A checkpoint message of node `3` makes the node, which is in timeout, ask for the committed
proposal of block `3`, and node `3` answers with a proposal of its own. -/
def fetchedProposal : List Input :=
  [.timeout, .message (.pbft (voteOf .checkPoint 3 0 3 60)),
    .committedResponse 0 (some [{ index := 3, hash := 50, data := some ⟨3, 51⟩ }]), .loaded 0 true]

/-- The block is executed without a single commit message, and its hash is not even the hash of the
proposal. -/
theorem executed_without_votes : ∃ lastApplied proposal,
    (lastApplied, proposal) ∈ ((startNode 0).run fetchedProposal).applying ∧
    proposal.data = some ⟨3, 51⟩ ∧ proposal.hash = 50 ∧
    ¬ ∃ S, ((startNode 0).run fetchedProposal).config.IsQuorum S ∧
      ∀ i ∈ S, ((startNode 0).run fetchedProposal).Voted (fun _ _ _ => False) i 3 51 := by
  refine ⟨{ index := 2, hash := 7 }, { index := 3, hash := 50, data := some ⟨3, 51⟩ },
    by decide +kernel, rfl, rfl, ?_⟩
  rintro ⟨S, hS, hvoted⟩
  have hsent : ¬ ∃ m, ((startNode 0).run fetchedProposal).SentVote .commitPacket m ∧
      m.index = 3 ∧ m.hash = 51 := by decide +kernel
  have hempty : S = ∅ := by
    refine eq_empty_of_forall_notMem fun i hi => ?_
    obtain h | ⟨-, hcommit⟩ := hvoted i hi
    · exact h
    · exact hsent hcommit
  subst hempty
  exact absurd hS (by decide +kernel)

end Loki.Fisco
