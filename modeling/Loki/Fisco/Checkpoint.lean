import Loki.Foundation.Quorum
import Loki.Fisco.Execution

/-!
# Checkpoints of a deployment

Nodes start from one block and one node list.  A node executes one proposal at a time, each on top
of the last one it has executed, so that every checkpoint it announces is determined by the chain of
proposals that have a quorum of commits.
-/

namespace Loki.Fisco

open Nat

open Finset Option List.Subset PBFTCache Std.ExtTreeMap PBFTMessage Message PBFTConfig OrderedMap

/-- The honest nodes of one node list, as they start, and how proposals are executed. -/
structure Deployment where
  nodes : List ConsensusNode
  honest : Finset Nat
  start : Nat → PBFTEngine
  number : Nat
  hash : HashType
  exec : HashType → HashType → HashType
  isInit : ∀ i ∈ honest, (start i).IsInit
  nodeList : ∀ i ∈ honest, (start i).config.consensusNodeList = nodes
  nodeIndex : ∀ i ∈ honest, (start i).config.nodeIndex = i
  committed : ∀ i ∈ honest, (start i).config.committedProposal.index = number ∧
    (start i).config.committedProposal.hash = hash
  total_pos : 1 ≤ (nodes.map (·.weight)).sum
  total_lt : (nodes.map (·.weight)).sum < uint64
  faulty_le : ∀ i ∈ honest, ∑ j ∈ range nodes.length \ honest, nodeWeight nodes j ≤
    (start i).config.maxFaultyQuorum

variable {config : PBFTConfig} {index : Nat}

section

variable {total : Nat} (htotal : (config.consensusNodeList.map (·.weight)).sum = total)
  (hpos : 1 ≤ total) (hlt : total < uint64)

include htotal hpos hlt

theorem PBFTConfig.maxFaultyQuorum_eq : config.maxFaultyQuorum = (total - 1) / 3 := by
  have hrest : total + (uint64 - 1) = total - 1 + uint64 := by omega
  rw [maxFaultyQuorum, totalQuorum, htotal, mod_eq_of_lt hlt, hrest, add_mod_right,
    mod_eq_of_lt (by omega)]

theorem PBFTConfig.minRequiredQuorum_eq :
    config.minRequiredQuorum = total - (total - 1) / 3 := by
  have hrest : total + (uint64 - (total - 1) / 3) = total - (total - 1) / 3 + uint64 := by omega
  rw [minRequiredQuorum, maxFaultyQuorum_eq htotal hpos hlt, totalQuorum, htotal,
    mod_eq_of_lt hlt, hrest, add_mod_right, mod_eq_of_lt (by omega)]

end

namespace Deployment

variable {D : Deployment} {config : PBFTConfig} {S : Finset Nat} {i : Nat}

def quorumSystem (D : Deployment) (hi : i ∈ D.honest) : Foundation.QuorumSystem Nat where
  members := range D.nodes.length
  weight := nodeWeight D.nodes
  honest := D.honest
  faulty_lt := by
    have hfaulty := D.faulty_le i hi
    rw [maxFaultyQuorum_eq (by rw [D.nodeList i hi]) D.total_pos D.total_lt] at hfaulty
    have hpos := D.total_pos
    rw [sum_nodeWeight_range]
    omega

theorem isQuorum (hi : i ∈ D.honest) (hnodes : config.consensusNodeList = D.nodes)
    (hS : config.IsQuorum S) : (D.quorumSystem hi).IsQuorum S := by
  obtain ⟨hlt, hweight⟩ := hS
  rw [minRequiredQuorum_eq (by rw [hnodes]) D.total_pos D.total_lt, hnodes] at hweight
  refine ⟨fun j hj => mem_range.mpr (hnodes ▸ hlt j hj), ?_⟩
  have hpos := D.total_pos
  have htotal := sum_nodeWeight_range D.nodes
  simp only [quorumSystem]
  omega

end Deployment

variable {D : Deployment} {V : Nat → Nat → HashType → Prop} {s t : PBFTEngine}

def AnyData (_ : Nat) (_ : HashType) (_ : Option BlockHeader) : Prop := True

/-- What is known of the commits of others, at an honest node: no honest node has sent two hashes
for an index, and of the node itself no more is known than it has sent. -/
structure Others (D : Deployment) (V : Nat → Nat → HashType → Prop) (s : PBFTEngine) : Prop where
  honest : s.config.nodeIndex ∈ D.honest
  unique : ∀ i ∈ D.honest, ∀ index hash hash', V i index hash → V i index hash' → hash = hash'
  own : ∀ index hash, V s.config.nodeIndex index hash →
    ∃ m, s.SentVote .commitPacket m ∧ m.index = index ∧ m.hash = hash

theorem Others.mono (h : Others D V s) (hsame : SameNode s t) : Others D V t := by
  have hindex := PBFTEngine.nodeIndex_congr hsame.nodeList hsame.nodeID
  refine ⟨hindex ▸ h.honest, h.unique, fun index hash hV => ?_⟩
  rw [hindex] at hV
  obtain ⟨m, hm, hrest⟩ := h.own index hash hV
  exact ⟨m, ⟨hsame.sent hm.1, hm.2⟩, hrest⟩

theorem voted_hash_eq (hV : Others D V s) (hnodes : s.config.consensusNodeList = D.nodes)
    (hlock : CommitLock s) {S S'} (hS : s.config.IsQuorum S)
    (hS' : s.config.IsQuorum S') {hash hash'} (hvoted : ∀ i ∈ S, s.Voted V i index hash)
    (hvoted' : ∀ i ∈ S', s.Voted V i index hash') : hash = hash' := by
  obtain ⟨i, hi, hmem, hmem'⟩ := (D.isQuorum hV.honest hnodes hS).exists_honest
    (D.isQuorum hV.honest hnodes hS')
  have hown {h} (hi : i = s.config.nodeIndex) (hv : s.Voted V i index h) :
      ∃ m, s.SentVote .commitPacket m ∧ m.index = index ∧ m.hash = h := by
    rcases hv with hv | ⟨-, hm⟩
    · exact hV.own index h (hi ▸ hv)
    · exact hm
  by_cases hself : i = s.config.nodeIndex
  · obtain ⟨m, hm, hindex, rfl⟩ := hown hself (hvoted i hmem)
    obtain ⟨m', hm', hindex', rfl⟩ := hown hself (hvoted' i hmem')
    exact hlock.unique m m' hm hm' (hindex.trans hindex'.symm)
  · exact hV.unique i hi index hash hash' ((hvoted i hmem).resolve_right fun h => hself h.1)
      ((hvoted' i hmem').resolve_right fun h => hself h.1)

/-! ### Executions under way -/

def PBFTEngine.inFlight (s : PBFTEngine) : List PBFTProposal :=
  s.applying.map (·.2) ++ s.finished.map (·.1)

/-- At most one proposal is executed at a time, that of the expected checkpoint.  A hash may be held
back from being executed again. -/
structure Flight (held : Option HashType) (s : PBFTEngine) : Prop where
  single : s.inFlight.length ≤ 1
  current : ∀ proposal ∈ s.inFlight, proposal.index = s.config.expectedCheckPoint ∧
    s.executingProposals[proposal.hash]? = some proposal.index ∧ ∀ hash ∈ held, proposal.hash ≠ hash
  held_mem : ∀ hash ∈ held, ∃ index, s.executingProposals[hash]? = some index ∧
    s.config.committedProposal.index < index

namespace Flight

variable {held : Option HashType} {proposal : PBFTProposal}

theorem of_eq (h : Flight held s) (hflight : t.inFlight = s.inFlight)
    (hexecuting : t.executingProposals = s.executingProposals)
    (hexpected : t.config.expectedCheckPoint = s.config.expectedCheckPoint)
    (hcommitted : held.isSome → t.config.committedProposal = s.config.committedProposal) :
    Flight held t where
  single := hflight ▸ h.single
  current proposal hp := by
    rw [hexpected, hexecuting]
    exact h.current proposal (hflight ▸ hp)
  held_mem hash hhash := by
    rw [hexecuting, hcommitted (hhash ▸ rfl)]
    exact h.held_mem hash hhash

theorem expire (h : Flight held s) (hordered : s.core.Ordered) :
    Flight held s.clearExpiredExecutingProposal where
  single := h.single
  current proposal hp := by
    obtain ⟨hindex, hexecuting, hheld⟩ := h.current proposal hp
    refine ⟨hindex, ?_, hheld⟩
    have hlt : s.config.committedProposal.index < proposal.index :=
      hindex ▸ hordered.1.symm.trans_le hordered.2
    simp [PBFTEngine.clearExpiredExecutingProposal, hexecuting, hlt]
  held_mem hash hhash := by
    obtain ⟨index, hexecuting, hlt⟩ := h.held_mem hash hhash
    refine ⟨index, ?_, hlt⟩
    simp [PBFTEngine.clearExpiredExecutingProposal, hexecuting, hlt]

/-- While a proposal is executed no other of its index can be, because it would have the same
hash. -/
theorem apply (h : Flight held s) {lastApplied queue}
    (hunique : ∀ other ∈ s.inFlight, other.index = proposal.index → other.hash = proposal.hash)
    (hindex : proposal.index = s.config.expectedCheckPoint)
    (hexec : proposal.hash ∉ s.executingProposals) :
    Flight held { s with
      committedQueue := queue
      executingProposals := s.executingProposals.insert proposal.hash proposal.index
      applying := s.applying ++ [(lastApplied, proposal)] } := by
  have hnone : s.inFlight = [] := by
    refine List.eq_nil_iff_forall_not_mem.mpr fun other hother => ?_
    obtain ⟨hother_index, hexecuting, -⟩ := h.current other hother
    rw [hunique other hother (hother_index.trans hindex.symm)] at hexecuting
    exact hexec (mem_iff_isSome_getElem?.mpr (by simp [hexecuting]))
  obtain ⟨happlying, hfinished⟩ : s.applying = [] ∧ s.finished = [] := by
    simpa [PBFTEngine.inFlight] using hnone
  refine ⟨by simp [PBFTEngine.inFlight, happlying, hfinished], ?_, fun hash hhash => ?_⟩
  · intro other hother
    obtain rfl : other = proposal := by
      simpa [PBFTEngine.inFlight, happlying, hfinished] using hother
    refine ⟨hindex, by simp, fun hash hhash heq => ?_⟩
    obtain ⟨index, hexecuting, -⟩ := h.held_mem hash hhash
    exact hexec (heq ▸ mem_iff_isSome_getElem?.mpr (by simp [hexecuting]))
  · obtain ⟨index, hexecuting, hlt⟩ := h.held_mem hash hhash
    have hne : proposal.hash ≠ hash := by
      rintro rfl
      exact hexec (mem_iff_isSome_getElem?.mpr (by simp [hexecuting]))
    exact ⟨index, by simp [hne, hexecuting], hlt⟩

theorem pending_of_mem (h : proposal ∈ s.inFlight) : s.Pending proposal := by
  rcases List.mem_append.mp h with h | h
  · obtain ⟨⟨lastApplied, proposal⟩, hmem, rfl⟩ := List.mem_map.mp h
    exact .inr (.inl ⟨lastApplied, hmem⟩)
  · obtain ⟨⟨_, executed⟩, hmem, rfl⟩ := List.mem_map.mp h
    exact .inr (.inr ⟨executed, hmem⟩)

theorem move {R} (h : Flight held s) (hordered : s.core.Ordered)
    (hunique : ∀ proposal proposal', s.Pending proposal → s.Pending proposal' →
      proposal.index = proposal'.index → proposal.hash = proposal'.hash)
    (hmove : Move R s t) : Flight held t := by
  cases hmove with
  | calm hcalm =>
    exact h.of_eq (by rw [PBFTEngine.inFlight, hcalm.applying, hcalm.finished_eq]; rfl)
      hcalm.executingProposals hcalm.expectedCheckPoint fun _ => hcalm.committedProposal
  | preCommit =>
    unfold PBFTEngine.preCommitted
    split <;> exact h.of_eq rfl rfl rfl fun _ => rfl
  | expire => exact h.expire hordered
  | apply _ proposal _ _ hmem hindex _ hexec =>
    exact h.apply (fun other hother => hunique other proposal (pending_of_mem hother) (.inl hmem))
      hindex hexec
  | _ => exact h.of_eq rfl rfl rfl fun _ => rfl

theorem eraseExecutedProposal {hash} (h : Flight (some hash) s) :
    Flight none (s.eraseExecutedProposal hash) where
  single := h.single
  current proposal hp := by
    obtain ⟨hindex, hexecuting, hheld⟩ := h.current proposal hp
    refine ⟨hindex, ?_, by simp⟩
    simp [PBFTEngine.eraseExecutedProposal, hexecuting, Ne.symm (hheld hash rfl)]
  held_mem := by simp

theorem onExecuteFinished (h : Flight none s) (position : Nat) (executed : Option PBFTProposal) :
    Flight none (s.onExecuteFinished position executed) := by
  unfold PBFTEngine.onExecuteFinished
  split
  · exact h
  next lastApplied proposal hget =>
    have hlength := (List.getElem?_eq_some_iff.mp hget).1
    have hmem : (lastApplied, proposal) ∈ s.applying := List.mem_of_getElem? hget
    have hsingle := h.single
    have hcurrent := h.current
    simp only [PBFTEngine.inFlight, List.length_append, List.length_map, List.mem_append,
      List.mem_map] at hsingle hcurrent
    dsimp only
    split
    all_goals
      refine ⟨?_, fun _ hother => ?_, by simp⟩
      · simp only [PBFTEngine.inFlight, List.length_append, List.length_map,
          List.length_eraseIdx_of_lt hlength, List.length_singleton]
        omega
      simp only [PBFTEngine.inFlight, List.mem_append, List.mem_map] at hother
    · rcases hother with ⟨entry, hentry, rfl⟩ | hother
      · exact hcurrent _ (.inl ⟨entry, List.mem_of_mem_eraseIdx hentry, rfl⟩)
      · exact hcurrent _ (.inr hother)
    · rcases hother with ⟨entry, hentry, rfl⟩ | ⟨entry, hentry | hentry, rfl⟩
      · exact hcurrent _ (.inl ⟨entry, List.mem_of_mem_eraseIdx hentry, rfl⟩)
      · exact hcurrent _ (.inr ⟨entry, hentry, rfl⟩)
      · obtain rfl := List.mem_singleton.mp hentry
        exact hcurrent _ (.inl ⟨_, hmem, rfl⟩)

end Flight

/-! ### Checkpoints and their parents -/

namespace PBFTEngine

def HasCheckPoint (s : PBFTEngine) (index : Nat) (hash : HashType) : Prop :=
  ∃ m, s.SentVote .checkPoint m ∧ m.index = index ∧ m.hash = hash

def Parent (D : Deployment) (s : PBFTEngine) (index : Nat) (hash : HashType) : Prop :=
  index = D.number + 1 ∧ hash = D.hash ∨ ∃ i, i + 1 = index ∧ s.HasCheckPoint i hash

variable (D V s)

def Derived (index : Nat) (hash : HashType) : Prop :=
  ∃ parent proposalHash, hash = D.exec parent proposalHash ∧ s.Parent D index parent ∧
    ∃ S, s.config.IsQuorum S ∧ ∀ i ∈ S, s.Voted V i index proposalHash

end PBFTEngine

open PBFTEngine

structure Chain (D : Deployment) (V : Nat → Nat → HashType → Prop) (s : PBFTEngine) : Prop where
  announced : ∀ index hash, s.HasCheckPoint index hash → D.number < index ∧
    index < s.config.expectedCheckPoint ∧ s.Derived D V index hash
  caches : ∀ i proposal, (s.core.cacheAt i).checkpointProposal = some proposal →
    proposal.index = i ∧ s.HasCheckPoint i proposal.hash
  committed : s.config.committedProposal.index = D.number ∧
      s.config.committedProposal.hash = D.hash ∨
    s.HasCheckPoint s.config.committedProposal.index s.config.committedProposal.hash
  queue : ∀ stable ∈ s.stableCheckPointQueue, s.HasCheckPoint stable.index stable.hash
  committing : ∀ stable ∈ s.committing, s.HasCheckPoint stable.index stable.hash
  stored : ∀ stable ∈ s.stored, s.HasCheckPoint stable.index stable.hash
  applying : ∀ entry ∈ s.applying, s.Parent D entry.2.index entry.1.hash
  finished : ∀ entry ∈ s.finished, ∃ parent executed, entry.2 = some executed ∧
    executed.index = entry.1.index ∧ executed.hash = D.exec parent entry.1.hash ∧
    s.Parent D entry.1.index parent

def SameCheckpoint (c c' : PBFTCache) : Prop :=
  ∀ proposal, c'.checkpointProposal = some proposal → ∃ old,
    c.checkpointProposal = some old ∧ old.index = proposal.index ∧ old.hash = proposal.hash

theorem SameCheckpoint.of_eq {c c' : PBFTCache} (h : c'.checkpointProposal = c.checkpointProposal) :
    SameCheckpoint c c' :=
  fun proposal hproposal => ⟨proposal, h ▸ hproposal, rfl, rfl⟩

structure Silent (s t : PBFTEngine) : Prop extends SameNode s t where
  expected : s.config.expectedCheckPoint ≤ t.config.expectedCheckPoint
  committed : t.config.committedProposal = s.config.committedProposal
  checkPoint : ∀ m, t.SentVote .checkPoint m → s.HasCheckPoint m.index m.hash
  caches : ∀ i, SameCheckpoint (s.core.cacheAt i) (t.core.cacheAt i)
  queue : t.stableCheckPointQueue ⊆ s.stableCheckPointQueue
  committing : t.committing ⊆ s.committing
  stored : t.stored ⊆ s.stored
  applying : t.applying ⊆ s.applying
  finished : t.finished ⊆ s.finished

theorem PBFTEngine.HasCheckPoint.mono {hash} (h : s.HasCheckPoint index hash)
    (hsent : s.sent ⊆ t.sent) : t.HasCheckPoint index hash := by
  obtain ⟨m, hm, hrest⟩ := h
  exact ⟨m, ⟨hsent hm.1, hm.2⟩, hrest⟩

theorem PBFTEngine.Parent.mono {hash} (h : s.Parent D index hash)
    (hsent : s.sent ⊆ t.sent) : t.Parent D index hash := by
  rcases h with h | ⟨i, hi, h⟩
  · exact .inl h
  · exact .inr ⟨i, hi, h.mono hsent⟩

theorem PBFTEngine.Derived.mono {hash} (h : s.Derived D V index hash) (hsame : SameNode s t) :
    t.Derived D V index hash := by
  obtain ⟨parent, proposalHash, hexec, hparent, S, hS, hvoted⟩ := h
  exact ⟨parent, proposalHash, hexec, hparent.mono hsame.sent, S,
    (isQuorum_congr hsame.nodeList).mpr hS, fun i hi => (hvoted i hi).mono hsame⟩

theorem Chain.silent (h : Chain D V s) (hsilent : Silent s t) : Chain D V t where
  announced index hash hcheck := by
    obtain ⟨m, hm, rfl, rfl⟩ := hcheck
    obtain ⟨hnumber, hexpected, hderived⟩ := h.announced _ _ (hsilent.checkPoint m hm)
    exact ⟨hnumber, hexpected.trans_le hsilent.expected,
      hderived.mono hsilent.toSameNode⟩
  caches i proposal hproposal := by
    obtain ⟨old, hold, hindex, hhash⟩ := hsilent.caches i proposal hproposal
    obtain ⟨hi, hcheck⟩ := h.caches i old hold
    exact ⟨hindex ▸ hi, (hhash ▸ hcheck).mono hsilent.sent⟩
  committed := by
    rw [hsilent.committed]
    exact h.committed.imp_right fun hcheck => hcheck.mono hsilent.sent
  queue stable hmem := (h.queue stable (hsilent.queue hmem)).mono hsilent.sent
  committing stable hmem := (h.committing stable (hsilent.committing hmem)).mono hsilent.sent
  stored stable hmem := (h.stored stable (hsilent.stored hmem)).mono hsilent.sent
  applying entry hmem := (h.applying entry (hsilent.applying hmem)).mono hsilent.sent
  finished entry hmem := by
    obtain ⟨parent, executed, hsome, hindex, hhash, hparent⟩ :=
      h.finished entry (hsilent.finished hmem)
    exact ⟨parent, executed, hsome, hindex, hhash, hparent.mono hsilent.sent⟩

namespace Silent

theorem hasCheckPoint {m} (h : s.SentVote .checkPoint m) : s.HasCheckPoint m.index m.hash :=
  ⟨m, h, rfl, rfl⟩

theorem of_caches (hconfig : t.config = s.config) (hsent : t.sent = s.sent)
    (hqueue : t.stableCheckPointQueue = s.stableCheckPointQueue)
    (hcommitting : t.committing = s.committing) (hstored : t.stored = s.stored)
    (happlying : t.applying = s.applying) (hfinished : t.finished = s.finished)
    (hcaches : ∀ i, SameCheckpoint (s.core.cacheAt i) (t.core.cacheAt i)) : Silent s t where
  nodeList := by rw [hconfig]
  nodeID := by rw [hconfig]
  expected := by rw [hconfig]
  committed := by rw [hconfig]
  sent := hsent ▸ refl _
  checkPoint m hm := hasCheckPoint (by simpa [SentVote, hsent] using hm)
  caches := hcaches
  queue := hqueue ▸ refl _
  committing := hcommitting ▸ refl _
  stored := hstored ▸ refl _
  applying := happlying ▸ refl _
  finished := hfinished ▸ refl _

variable {index : Nat}

theorem same (s : PBFTEngine) : Silent s s :=
  of_caches rfl rfl rfl rfl rfl rfl rfl fun _ => .of_eq rfl

theorem setCache {c'} (h : SameCheckpoint (s.core.cacheAt index) c') :
    Silent s (s.setCache index c') := by
  refine of_caches rfl rfl rfl rfl rfl rfl rfl fun i => ?_
  rw [cacheAt_setCache]
  split
  next heq => exact heq ▸ h
  · exact .of_eq rfl

theorem send {msg}
    (h : ∀ m, msg = .pbft m → m.packetType ≠ .checkPoint) : Silent s (s.send msg) :=
  { same s with
    sent := List.subset_cons_self _ _
    checkPoint := by
      intro m hm
      rcases List.mem_cons.mp hm.1 with heq | hmem
      · exact absurd hm.2 (h m heq.symm)
      · exact hasCheckPoint ⟨hmem, hm.2⟩ }

theorem filterCaches (keep : Nat → PBFTCache → Bool) :
    Silent s { s with caches := s.caches.filter keep } := by
  refine of_caches rfl rfl rfl rfl rfl rfl rfl fun i => ?_
  rcases s.cacheAt_filter keep i with heq | ⟨heq, -⟩
  · rw [heq]
    exact .of_eq rfl
  · rw [heq]
    exact nofun

theorem of_calm (h : Calm s t) : Silent s t where
  nodeList := h.consensusNodeList
  nodeID := h.nodeID
  expected := h.expectedCheckPoint.ge
  committed := h.committedProposal
  sent := h.sent
  checkPoint m hm := hasCheckPoint ⟨h.votes _ hm.1 (.inr (.inr hm.2)), hm.2⟩
  caches i proposal hproposal := by
    have hcheckpoint := (h.caches i).checkpoint
    rw [hproposal, eq_comm, map_some, map_eq_some_iff] at hcheckpoint
    obtain ⟨old, hold, heq⟩ := hcheckpoint
    exact ⟨old, hold, congrArg Prod.fst heq, congrArg Prod.snd heq⟩
  queue := h.stableQueue
  committing := h.committing ▸ refl _
  stored := h.stored ▸ refl _
  applying := h.applying ▸ refl _
  finished := h.finished_eq ▸ refl _

end Silent

namespace Chain

theorem prepared (h : Chain D V s) (msg : PBFTMessage) (proposal) :
    Chain D V (s.prepared msg proposal) := by
  have hpre : Chain D V (s.addPrePrepareCache msg) := by
    refine h.silent (.setCache (.of_eq ?_))
    change (PBFTCache.addPrePrepareCache (s.core.cacheAt msg.index) msg).checkpointProposal = _
    rcases addPrePrepareCache_cases (s.core.cacheAt msg.index) msg with ⟨heq, -⟩ | heq <;> rw [heq]
  have hvote : Chain D V ((s.addPrePrepareCache msg).addPrepareCache (s.prepareReq msg proposal)) :=
    hpre.silent (.setCache (.of_eq rfl))
  refine hvote.silent (.send fun m heq => ?_)
  obtain rfl := pbft.inj heq
  simp [prepareReq, encode, populateVote]

theorem preCommitted (h : Chain D V s) {index cache prePrepare}
    (hget : s.caches[index]? = some cache) : Chain D V (s.preCommitted index cache prePrepare) := by
  have hcheckpoint : (cache.preCommitted s.config prePrepare).checkpointProposal =
      (s.core.cacheAt index).checkpointProposal := by
    rw [preCommitted_checkpointProposal, cacheAt_eq hget]
  unfold PBFTEngine.preCommitted
  split
  · exact h.silent (.setCache (.of_eq hcheckpoint))
  next msg hreq =>
    have hsend : Chain D V (s.send (.pbft msg)) := by
      refine h.silent (.send fun m heq => ?_)
      obtain rfl := pbft.inj heq
      obtain ⟨_, -, rfl⟩ := map_eq_some_iff.mp hreq
      simp [encode, populateVote]
    exact hsend.silent (.setCache (.of_eq hcheckpoint))

variable {proposal : PBFTProposal}

section

variable (h : Chain D V s)

include h

theorem hasCheckPoint_of_executed (hexecuted : s.Executed proposal) :
    s.HasCheckPoint proposal.index proposal.hash := by
  obtain ⟨i, cache, checkpoint, hget, hcheckpoint, hindex, hhash⟩ := hexecuted
  obtain ⟨hi, hannounced⟩ := h.caches i checkpoint (cacheAt_eq hget ▸ hcheckpoint)
  rw [← hindex, hi, ← hhash]
  exact hannounced

theorem resend (hexecuted : s.Executed proposal) :
    Chain D V (s.send (.pbft (s.checkPointReq proposal))) := by
  have hannounced := h.hasCheckPoint_of_executed hexecuted
  refine h.silent { Silent.same s with
    sent := List.subset_cons_self _ _
    checkPoint := fun m hm => ?_ }
  rcases List.mem_cons.mp hm.1 with heq | hmem
  · obtain rfl := pbft.inj heq
    exact hannounced
  · exact Silent.hasCheckPoint ⟨hmem, hm.2⟩

theorem parent_of_lastApplied (hordered : s.core.Ordered) {lastApplied}
    (hlast : s.getAppliedCheckPointProposal (s.config.expectedCheckPoint - 1) = some lastApplied) :
    s.Parent D s.config.expectedCheckPoint lastApplied.hash := by
  have hpos : s.config.committedProposal.index + 1 ≤ s.config.expectedCheckPoint :=
    hordered.1.symm.trans_le hordered.2
  unfold getAppliedCheckPointProposal at hlast
  split at hlast
  · obtain rfl := some.inj hlast
    rcases h.committed with ⟨_, hhash⟩ | hannounced
    · exact .inl ⟨by omega, hhash⟩
    · exact .inr ⟨_, by omega, hannounced⟩
  · obtain ⟨cache, hget, hcheckpoint⟩ := bind_eq_some_iff.mp hlast
    exact .inr ⟨_, by omega, (h.caches _ lastApplied (cacheAt_eq hget ▸ hcheckpoint)).2⟩

theorem move {R} (hordered : s.core.Ordered) (hmove : Move R s t) : Chain D V t := by
  cases hmove with
  | calm hcalm => exact h.silent (.of_calm hcalm)
  | enqueue | expire => exact ⟨h.1, h.2, h.3, h.4, h.5, h.6, h.7, h.8⟩
  | prepare msg proposal => exact h.prepared msg proposal
  | commitVote => exact h.silent (.setCache (.of_eq rfl))
  | resend _ hexecuted => exact h.resend hexecuted
  | preCommit _ _ _ hget => exact h.preCommitted hget
  | apply _ _ _ _ _ hindex hlast =>
    refine ⟨h.1, h.2, h.3, h.4, h.5, h.6, fun entry hentry => ?_, h.8⟩
    rcases List.mem_append.mp hentry with hentry | hentry
    · exact h.applying entry hentry
    · obtain rfl := List.mem_singleton.mp hentry
      exact hindex ▸ h.parent_of_lastApplied hordered hlast
  | enqueueStable _ hexecuted =>
    refine ⟨h.1, h.2, h.3, fun other hother => ?_, h.5, h.6, h.7, h.8⟩
    rcases List.mem_append.mp hother with hother | hother
    · exact h.queue other hother
    · obtain rfl := List.mem_singleton.mp hother
      exact h.hasCheckPoint_of_executed hexecuted
  | store stable _ hqueue hmem =>
    have hannounced := h.queue stable hmem
    refine ⟨h.1, h.2, h.3, fun other hother => h.queue other (hqueue hother),
      fun other hother => ?_, fun other hother => ?_, h.7, h.8⟩
    · rcases List.mem_append.mp hother with hother | hother
      · exact h.committing other hother
      · obtain rfl := List.mem_singleton.mp hother
        exact hannounced
    · rcases List.mem_cons.mp hother with rfl | hother
      · exact hannounced
      · exact h.stored other hother

theorem onExecuteFinished {position executed}
    (hexec : ∀ entry ∈ s.applying[position]?, ∃ block, executed = some block ∧
      block.index = entry.2.index ∧ block.hash = D.exec entry.1.hash entry.2.hash) :
    Chain D V (s.onExecuteFinished position executed) := by
  unfold PBFTEngine.onExecuteFinished
  split
  · exact h
  next lastApplied _ hget =>
    have hparent := h.applying _ (List.mem_of_getElem? hget)
    obtain ⟨block, rfl, hindex, hhash⟩ := hexec _ hget
    have happlying : ∀ entry ∈ s.applying.eraseIdx position,
        s.Parent D entry.2.index entry.1.hash :=
      fun entry hentry => h.applying entry (List.mem_of_mem_eraseIdx hentry)
    dsimp only
    split
    · exact ⟨h.1, h.2, h.3, h.4, h.5, h.6, happlying, h.8⟩
    · refine ⟨h.1, h.2, h.3, h.4, h.5, h.6, happlying, fun entry hentry => ?_⟩
      rcases List.mem_append.mp hentry with hentry | hentry
      · exact h.finished entry hentry
      · obtain rfl := List.mem_singleton.mp hentry
        exact ⟨lastApplied.hash, block, rfl, hindex, hhash, hparent⟩

theorem recordExecuted {executed : PBFTProposal}
    (hderived : s.Derived D V executed.index executed.hash)
    (hexpected : s.config.expectedCheckPoint ≤ executed.index + 1) :
    Chain D V (s.recordExecuted executed) := by
  have hsent : s.sent ⊆ (s.recordExecuted executed).sent := List.subset_cons_self _ _
  have hnew : (s.recordExecuted executed).HasCheckPoint executed.index executed.hash :=
    ⟨s.checkPointReq executed, ⟨List.mem_cons_self, rfl⟩, rfl, rfl⟩
  have hnumber : D.number < executed.index := by
    obtain ⟨parent, _, -, hparent, -⟩ := hderived
    rcases hparent with ⟨hindex, -⟩ | ⟨i, hindex, hannounced⟩
    · omega
    · have := (h.announced i parent hannounced).1
      omega
  have hlt : executed.index < (s.recordExecuted executed).config.expectedCheckPoint :=
    Nat.le_max_right _ _
  constructor
  case announced =>
    rintro _ _ ⟨m, hm, rfl, rfl⟩
    rcases List.mem_cons.mp hm.1 with heq | hmem
    · obtain rfl := pbft.inj heq
      exact ⟨hnumber, hlt, hderived.mono ⟨rfl, rfl, hsent⟩⟩
    · obtain ⟨hnumber, hold, hderived⟩ := h.announced _ _ (Silent.hasCheckPoint ⟨hmem, hm.2⟩)
      exact ⟨hnumber, hold.trans_le (hexpected.trans hlt), hderived.mono ⟨rfl, rfl, hsent⟩⟩
  case caches =>
    intro i proposal hproposal
    rw [cacheAt_recordExecuted] at hproposal
    split at hproposal
    case isFalse =>
      obtain ⟨hi, hannounced⟩ := h.caches i proposal hproposal
      exact ⟨hi, hannounced.mono hsent⟩
    next heq =>
      subst heq
      rcases PBFTCache.setCheckPointProposal_cases s.config _ executed with heq | heq
      · rw [heq] at hproposal
        obtain ⟨hi, hannounced⟩ := h.caches _ proposal hproposal
        exact ⟨hi, hannounced.mono hsent⟩
      · rw [heq] at hproposal
        exact some.inj hproposal ▸ ⟨rfl, hnew⟩
  case committed => exact h.committed.imp_right fun hannounced => hannounced.mono hsent
  case queue => exact fun stable hmem => (h.queue stable hmem).mono hsent
  case committing => exact fun stable hmem => (h.committing stable hmem).mono hsent
  case stored => exact fun stable hmem => (h.stored stable hmem).mono hsent
  case applying => exact fun entry hmem => (h.applying entry hmem).mono hsent
  case finished =>
    intro entry hmem
    obtain ⟨parent, block, hsome, hindex, hhash, hparent⟩ := h.finished entry hmem
    exact ⟨parent, block, hsome, hindex, hhash, hparent.mono hsent⟩

end

end Chain

theorem Chain.setConfig (h : Chain D V s)
    (hnodes : config.consensusNodeList = s.config.consensusNodeList)
    (hnodeID : config.nodeID = s.config.nodeID)
    (hexpected : s.config.expectedCheckPoint ≤ config.expectedCheckPoint)
    (hcommitted : config.committedProposal = s.config.committedProposal ∨
      s.HasCheckPoint config.committedProposal.index config.committedProposal.hash) :
    Chain D V (s.setConfig config) where
  announced index hash hcheck := by
    obtain ⟨hnumber, hlt, hderived⟩ := h.announced index hash hcheck
    exact ⟨hnumber, hlt.trans_le hexpected, hderived.mono ⟨hnodes, hnodeID, refl _⟩⟩
  caches := h.caches
  committed := by
    rcases hcommitted with heq | hannounced
    · have hold := h.committed
      rw [← heq] at hold
      exact hold
    · exact .inr hannounced
  queue := h.queue
  committing := h.committing
  stored := h.stored
  applying := h.applying
  finished := h.finished

theorem PBFTConfig.resetConfig_below {ledgerConfig}
    (hnodes : ledgerConfig.consensusNodeList = config.consensusNodeList)
    (hlt : ledgerConfig.blockNumber < config.expectedCheckPoint) :
    (config.resetConfig ledgerConfig).consensusNodeList = config.consensusNodeList ∧
      (config.resetConfig ledgerConfig).nodeID = config.nodeID ∧
      (config.resetConfig ledgerConfig).expectedCheckPoint = config.expectedCheckPoint ∧
      ((config.resetConfig ledgerConfig).committedProposal = config.committedProposal ∨
        (config.resetConfig ledgerConfig).committedProposal =
          { index := ledgerConfig.blockNumber, hash := ledgerConfig.hash }) := by
  unfold resetConfig
  split
  · exact ⟨rfl, rfl, rfl, .inl rfl⟩
  · exact ⟨hnodes, rfl, max_eq_left hlt, .inr rfl⟩

end Loki.Fisco
