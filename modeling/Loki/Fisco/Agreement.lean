import Loki.Fisco.Node

/-!
# Agreement of the honest nodes

The engines of a deployment take their steps in any order.  A step of one of them can depend on the
others only through the messages that it is given, so a network is a state for each node.
-/

namespace Loki.Fisco

open Function

abbrev Network : Type := Nat → PBFTEngine

def Message.withPacketType (packetType : PacketType) : Message → Message
  | .pbft msg => .pbft { msg with packetType := packetType }
  | msg => msg

namespace Network

def step (net : Network) (event : Nat × Input) : Network :=
  update net event.1 ((net event.1).step event.2)

def run (net : Network) (events : List (Nat × Input)) : Network := events.foldl step net

abbrev Along (C : Network → Nat × Input → Prop) (net : Network) (events : List (Nat × Input)) :
    Prop :=
  Foundation.Along step C net events

variable {D : Deployment} {net : Network} {i j : Nat}

section

variable (D : Deployment) (net : Network)

def SentCommit (i index : Nat) (hash : HashType) : Prop :=
  i ∈ D.honest → ∃ m, (net i).SentVote .commitPacket m ∧ m.index = index ∧ m.hash = hash

/-- An honest node of the deployment takes a step, and the pre-prepares that it votes for have
consistent proposals. -/
def InDomain (event : Nat × Input) : Prop :=
  event.1 ∈ D.honest ∧ event.2.InDeployment D (net event.1) ∧
    event.2.Meets consistentProposal (net event.1)

def SentAsCommit : Nat × Input → Prop
  | (i, .message (.pbft msg)) => msg.packetType = .commitPacket →
      (net i).checkPBFTMsg msg = true → net.SentCommit D msg.generatedFrom msg.index msg.hash
  | _ => True

/-- A message in the name of an honest node is one that it has sent, up to the packet type, which no
signature covers. -/
def Signed : Nat × Input → Prop
  | (_, .message (.pbft msg)) => msg.generatedFrom ∈ D.honest →
      ∃ sent ∈ (net msg.generatedFrom).sent, sent.withPacketType msg.packetType = .pbft msg
  | (_, .message (.viewChange msg)) => msg.generatedFrom ∈ D.honest →
      .viewChange msg ∈ (net msg.generatedFrom).sent
  | (_, .message (.newView msg)) => msg.generatedFrom ∈ D.honest →
      .newView msg ∈ (net msg.generatedFrom).sent
  | _ => True

end

theorem meets_votingRules {event} (hdomain : net.InDomain D event)
    (hsent : net.SentAsCommit D event) :
    event.2.Meets (votingRules (net.SentCommit D)) (net event.1) := by
  obtain ⟨i, input⟩ := event
  have hmeets := hdomain.2.2
  have hhandles {view msg} (h : consistentProposal.handles view msg) :
      (votingRules (net.SentCommit D)).handles view msg :=
    fun proposal hproposal => ⟨(h proposal hproposal).1, (h proposal hproposal).2, trivial⟩
  cases input with
  | message msg =>
    cases msg with
    | pbft => exact hsent
    | viewChange | newView => trivial
  | proposal => exact hhandles hmeets
  | verified _ verifyResult =>
    cases verifyResult with
    | true => exact fun pending hpending => hhandles (hmeets pending hpending)
    | false => trivial
  | _ => trivial

abbrev Orderly (D : Deployment) (net : Network) (event : Nat × Input) : Prop :=
  net.InDomain D event ∧ net.SentAsCommit D event

def Inv (D : Deployment) (net : Network) : Prop :=
  ∀ i ∈ D.honest, NodeInv D (net.SentCommit D) none (net i) ∧ (net i).config.nodeIndex = i

namespace Inv

theorem start (D : Deployment) : Inv D D.start :=
  fun i hi => ⟨.start hi, D.nodeIndex i hi⟩

theorem others (h : Inv D net) (hi : i ∈ D.honest) : Others D (net.SentCommit D) (net i) where
  honest := (h i hi).2.symm ▸ hi
  unique j hj index hash hash' hsent hsent' := by
    obtain ⟨m, hm, hindex, rfl⟩ := hsent hj
    obtain ⟨m', hm', hindex', rfl⟩ := hsent' hj
    exact (h j hj).1.lock.commit.unique m m' hm hm' (hindex.trans hindex'.symm)
  own index hash hsent := by
    rw [(h i hi).2] at hsent
    exact hsent hi

theorem step_lockMoves (h : Inv D net) {event} (hdomain : net.InDomain D event) (j : Nat) :
    LockMoves consistentProposal (net j) (net.step event j) := by
  unfold Network.step
  rcases eq_or_ne j event.1 with rfl | hne
  · rw [update_self]
    exact (h _ hdomain.1).1.step_lockMoves hdomain.2.2 hdomain.2.1
  · rw [update_of_ne hne]

theorem step (h : Inv D net) {event} (hdomain : net.InDomain D event)
    (hsent : net.SentAsCommit D event) : Inv D (net.step event) := by
  have hmono : ∀ j index hash, net.SentCommit D j index hash →
      (net.step event).SentCommit D j index hash := by
    intro j _ _ hvote hj
    obtain ⟨m, hm, hrest⟩ := hvote hj
    exact ⟨m, ⟨(h.step_lockMoves hdomain j).sent_subset.2 hm.1, hm.2⟩, hrest⟩
  intro j hj
  have hinv : NodeInv D (net.SentCommit D) none (net.step event j) := by
    unfold Network.step
    rcases eq_or_ne j event.1 with rfl | hne
    · rw [update_self]
      exact (h _ hj).1.step (h.others hj) (meets_votingRules hdomain hsent) hdomain.2.1
    · rw [update_of_ne hne]
      exact (h j hj).1
  refine ⟨hinv.mono hmono, ?_⟩
  rw [PBFTEngine.nodeIndex_congr (hinv.nodes.trans (h j hj).1.nodes.symm)
    (h.step_lockMoves hdomain j).sent_subset.1]
  exact (h j hj).2

theorem run {events} (h : Along (Orderly D) D.start events) : Inv D (run D.start events) :=
  h.invariant (fun _ _ hnet hC => hnet.step hC.1 hC.2) (.start D)

theorem run_lockMoves (h : Inv D net) {events} (hrun : Along (Orderly D) net events) (j : Nat) :
    LockMoves consistentProposal (net j) (net.run events j) := by
  induction events generalizing net with
  | nil => exact .refl
  | cons event _ ih =>
    exact (h.step_lockMoves hrun.1.1 j).trans (ih (h.step hrun.1.1 hrun.1.2) hrun.2)

section

variable (h : Inv D net) (hi : i ∈ D.honest) (hj : j ∈ D.honest)

include h hi hj

theorem sent_of_voted {index hash} (hvoted : (net i).Voted (net.SentCommit D) j index hash) :
    ∃ m, (net j).SentVote .commitPacket m ∧ m.index = index ∧ m.hash = hash := by
  rcases hvoted with hsent | ⟨heq, hsent⟩
  · exact hsent hj
  · rw [(h i hi).2] at heq
    exact heq ▸ hsent

theorem proposalHash_eq {S S'}
    (hS : (net i).config.IsQuorum S) (hS' : (net j).config.IsQuorum S') {index hash hash'}
    (hvoted : ∀ k ∈ S, (net i).Voted (net.SentCommit D) k index hash)
    (hvoted' : ∀ k ∈ S', (net j).Voted (net.SentCommit D) k index hash') : hash = hash' := by
  obtain ⟨k, hk, hmem, hmem'⟩ := (D.isQuorum hi (h i hi).1.nodes hS).exists_honest
    (D.isQuorum hi (h j hj).1.nodes hS')
  obtain ⟨m, hm, hindex, rfl⟩ := h.sent_of_voted hi hk (hvoted k hmem)
  obtain ⟨m', hm', hindex', rfl⟩ := h.sent_of_voted hj hk (hvoted' k hmem')
  exact (h k hk).1.lock.commit.unique m m' hm hm' (hindex.trans hindex'.symm)

/-- The checkpoints of an index have one hash.  By induction on the index, so have their parents. -/
theorem checkPoint_hash_eq {index hash hash'} (hcheck : (net i).HasCheckPoint index hash)
    (hcheck' : (net j).HasCheckPoint index hash') : hash = hash' := by
  induction index using Nat.strong_induction_on generalizing hash hash' with
  | _ index ih =>
    obtain ⟨-, -, parent, _, rfl, hparent, S, hS, hvoted⟩ :=
      (h i hi).1.chain.announced index hash hcheck
    obtain ⟨-, -, parent', _, rfl, hparent', _, hS', hvoted'⟩ :=
      (h j hj).1.chain.announced index hash' hcheck'
    obtain rfl := h.proposalHash_eq hi hj hS hS' hvoted hvoted'
    suffices heq : parent = parent' by rw [heq]
    rcases hparent with ⟨_, rfl⟩ | ⟨below, _, hannounced⟩ <;>
      rcases hparent' with ⟨_, rfl⟩ | ⟨below', _, hannounced'⟩
    · rfl
    · have hlt := ((h j hj).1.chain.announced below' parent' hannounced').1
      omega
    · have hlt := ((h i hi).1.chain.announced below parent hannounced).1
      omega
    · obtain rfl : below = below' := by omega
      exact ih below (by omega) hannounced hannounced'

end

end Inv

end Network

open Network

def PBFTEngine.Precommitted (s : PBFTEngine) (index : Nat) (hash : HashType) : Prop :=
  ∃ c p, s.caches[index]? = some c ∧ c.precommit = some p ∧ p.hash = hash

/-- Along runs in which every commit that is counted for an honest node has been sent by it as a
commit, no honest node precommits two hashes for an index, be it at different times, and no two of
them store different checkpoints of an index. -/
theorem ledger_agreement (D : Deployment) {events later : List (Nat × Input)}
    (h : Along (fun net event => net.InDomain D event ∧ net.SentAsCommit D event) D.start
      (events ++ later)) :
    (∀ i ∈ D.honest, ∀ index hash hash', (run D.start events i).Precommitted index hash →
      (run D.start (events ++ later) i).Precommitted index hash' → hash = hash') ∧
    ∀ i ∈ D.honest, ∀ j ∈ D.honest,
      ∀ stable ∈ (run D.start (events ++ later) i).stored,
      ∀ stable' ∈ (run D.start (events ++ later) j).stored,
        stable.index = stable'.index → stable.hash = stable'.hash := by
  have hinv := Inv.run h
  obtain ⟨hfirst, hlater⟩ := Foundation.along_append.mp h
  have hbefore := Inv.run hfirst
  refine ⟨fun i hi index _ _ hpre hpre' => ?_,
    fun i hi j hj stable hmem stable' hmem' heq => ?_⟩
  · obtain ⟨c, p, hget, hp, rfl⟩ := hpre
    obtain ⟨c', p', hget', hp', rfl⟩ := hpre'
    rw [← PBFTEngine.cacheAt_eq hget] at hp
    rw [← PBFTEngine.cacheAt_eq hget'] at hp'
    obtain ⟨m, hm, htype, hindex, hhash⟩ := ((hbefore i hi).1.lock.precommits index).vote p hp
    obtain ⟨m', hm', htype', hindex', hhash'⟩ := ((hinv i hi).1.lock.precommits index).vote p' hp'
    -- What was sent for the earlier precommit is still among what has been sent.
    have hsent : (run D.start events i).sent ⊆ (run D.start (events ++ later) i).sent := by
      rw [run, run, List.foldl_append]
      exact (hbefore.run_lockMoves hlater i).sent_subset.2
    rw [← hhash, ← hhash']
    exact (hinv i hi).1.lock.commit.unique m m' ⟨hsent hm, htype⟩ ⟨hm', htype'⟩
      (hindex.trans hindex'.symm)
  · have hcheck := (hinv i hi).1.chain.stored stable hmem
    have hcheck' := (hinv j hj).1.chain.stored stable' hmem'
    rw [← heq] at hcheck'
    exact hinv.checkPoint_hash_eq hi hj hcheck hcheck'

/-- The indices that a node applies along a run. -/
def Network.applied (i : Nat) (net : Network) : List (Nat × Input) → List Nat
  | [] => []
  | event :: events =>
    (if event.1 = i then (net i).applies event.2 else []) ++ applied i (net.step event) events

theorem Network.Inv.applied_eq {D : Deployment} {net : Network} {i} (h : Inv D net)
    (hi : i ∈ D.honest) {events} (hrun : Along (Orderly D) net events) :
    ∃ n, net.applied i events = List.range' (net i).config.expectedCheckPoint n := by
  induction events generalizing net with
  | nil => exact ⟨0, rfl⟩
  | cons event _ ih =>
    obtain ⟨⟨hdomain, hsent⟩, hrun⟩ := hrun
    obtain ⟨n, hn⟩ := ih (h.step hdomain hsent) hrun
    rw [applied, hn]
    split_ifs with heq
    · subst heq
      rw [show net.step event event.1 = _ from update_self ..]
      rcases (h _ hi).1.step_applies (meets_votingRules hdomain hsent) hdomain.2.1 with
        ⟨hnone, hsame⟩ | ⟨hone, hnext⟩
      · exact ⟨n, by rw [hnone, hsame, List.nil_append]⟩
      · exact ⟨n + 1, by rw [hone, hnext, List.singleton_append, List.range'_succ]⟩
    · rw [show net.step event i = _ from update_of_ne (Ne.symm heq) ..]
      exact ⟨n, rfl⟩

/-- Along the same runs a node executes one proposal at a time, that of the expected checkpoint, and
applies the indices one after another. -/
theorem commitQueue_in_order (D : Deployment) {events later : List (Nat × Input)} {i}
    (hi : i ∈ D.honest) (h : Along (Orderly D) D.start events)
    (hlater : Along (Orderly D) (run D.start events) later) :
    let s := run D.start events i
    s.inFlight.length ≤ 1 ∧
    (∀ proposal ∈ s.inFlight, proposal.index = s.config.expectedCheckPoint) ∧
    ∃ n, (run D.start events).applied i later = List.range' s.config.expectedCheckPoint n := by
  have hinv := Inv.run h
  have hflight := (hinv i hi).1.flight
  refine ⟨hflight.single, fun proposal hp => (hflight.current proposal hp).1, ?_⟩
  exact hinv.applied_eq hi hlater

/-- Along the same runs any two honest nodes have the same proposal at an index, be it queued, being
executed or executed, and announce the same checkpoint for it. -/
theorem execution_agreement (D : Deployment) {events : List (Nat × Input)}
    (h : Along (Orderly D) D.start events) {i j} (hi : i ∈ D.honest) (hj : j ∈ D.honest) :
    let net := run D.start events
    (∀ proposal proposal', (net i).Pending proposal → (net j).Pending proposal' →
      proposal.index = proposal'.index → proposal.hash = proposal'.hash) ∧
    ∀ index hash hash', (net i).HasCheckPoint index hash → (net j).HasCheckPoint index hash' →
      hash = hash' := by
  have hinv := Inv.run h
  refine ⟨fun proposal proposal' hp hp' hindex => ?_, fun _ _ _ => hinv.checkPoint_hash_eq hi hj⟩
  obtain ⟨-, _, hS, hvoted⟩ := (hinv i hi).1.exec.pending proposal hp
  obtain ⟨-, _, hS', hvoted'⟩ := (hinv j hj).1.exec.pending proposal' hp'
  exact hinv.proposalHash_eq hi hj hS hS' hvoted (hindex ▸ hvoted')

/-! ### Four nodes, of which the last is not honest -/

section FourNodes

instance {D : Deployment} {s : PBFTEngine} : ∀ input, Decidable (Input.InDeployment D s input)
  | .executed position result => inferInstanceAs (Decidable
      (∀ entry ∈ s.applying[position]?, ∃ block ∈ result, _ ∧ _))
  | .committed ledgerConfig => inferInstanceAs (Decidable (∀ config ∈ ledgerConfig, _))
  | .newBlock _ | .precommitResponse .. | .committedResponse .. | .loaded .. => isFalse id
  | .message _ | .proposal .. | .verified .. | .timeout | .applied | .checkPointTimeout _
  | .syncing _ | .connected _ => isTrue trivial

instance {D : Deployment} {net : Network} {event : Nat × Input} :
    Decidable (net.InDomain D event) :=
  inferInstanceAs (Decidable (_ ∧ _ ∧ _))

instance {D : Deployment} {net : Network} : DecidablePred (net.SentAsCommit D) := fun _ => by
  unfold SentAsCommit SentCommit
  split <;> infer_instance

instance {D : Deployment} {net : Network} : DecidablePred (net.Signed D) := fun _ => by
  unfold Signed
  split <;> infer_instance

def threeOfFour : Deployment where
  nodes := (fourNodes 2 7).consensusNodeList
  honest := {0, 1, 2}
  start := startNode
  number := 2
  hash := 7
  exec _ hash := hash + 100
  isInit i _ := startNode_isInit i
  nodeList _ _ := rfl
  nodeIndex := by decide
  committed _ _ := ⟨rfl, rfl⟩
  total_pos := by decide
  total_lt := by decide
  faulty_le := by decide

def prePrepareTo (node view : Nat) (hash : HashType) : List (Nat × Input) :=
  [(node, .message (.pbft (prePrepareOf 3 view 3 hash))), (node, .verified 0 true)]

/-- The votes of a node and of node `3` reach a third one. -/
def votesTo (node other : Nat) (packetType : PacketType) (hash : HashType) : List (Nat × Input) :=
  [(node, .message (.pbft (voteOf packetType other 0 3 hash))),
    (node, .message (.pbft (voteOf packetType 3 0 3 hash)))]

def execute (node : Nat) (hash : HashType) : List (Nat × Input) :=
  [(node, .executed 0 (some { index := 3, hash := hash })), (node, .applied)]

/-- Nodes `0` and `1` agree on a block, with the votes of node `3`. -/
def commonBlock : List (Nat × Input) :=
  prePrepareTo 0 0 11 ++ prePrepareTo 1 0 11 ++
    votesTo 0 1 .preparePacket 11 ++ votesTo 1 0 .preparePacket 11 ++
    votesTo 0 1 .commitPacket 11 ++ votesTo 1 0 .commitPacket 11 ++
    execute 0 111 ++ execute 1 111

def commonCheckPoint : List (Nat × Input) :=
  votesTo 0 1 .checkPoint 111 ++ votesTo 1 0 .checkPoint 111

theorem ledger_agreement_commonBlock :
    (∃ stable ∈ (run threeOfFour.start (commonBlock ++ commonCheckPoint) 0).stored,
      ∃ stable' ∈ (run threeOfFour.start (commonBlock ++ commonCheckPoint) 1).stored,
        stable.index = 3 ∧ stable'.index = 3 ∧ stable.hash = stable'.hash) := by
  have h : Along (fun net event => net.InDomain threeOfFour event ∧
      net.SentAsCommit threeOfFour event) threeOfFour.start (commonBlock ++ commonCheckPoint) := by
    decide +kernel
  have hstored : ∀ i ∈ ({0, 1} : Finset Nat), ∃ stable ∈
      (run threeOfFour.start (commonBlock ++ commonCheckPoint) i).stored,
        stable.index = 3 := by decide +kernel
  obtain ⟨stable, hmem, hindex⟩ := hstored 0 (by decide)
  obtain ⟨stable', hmem', hindex'⟩ := hstored 1 (by decide)
  exact ⟨stable, hmem, stable', hmem', hindex, hindex', (ledger_agreement threeOfFour h).2 0
    (by decide) 1 (by decide) stable hmem stable' hmem' (hindex.trans hindex'.symm)⟩

theorem execution_agreement_commonBlock :
    ∃ entry ∈ (run threeOfFour.start (commonBlock.take 12) 0).applying,
      ∃ entry' ∈ (run threeOfFour.start (commonBlock.take 12) 1).applying,
        entry.2.index = 3 ∧ entry'.2.index = 3 ∧ entry.2.hash = entry'.2.hash := by
  have happlying : ∀ i ∈ [0, 1], ∃ entry ∈
      (run threeOfFour.start (commonBlock.take 12) i).applying, entry.2.index = 3 := by
    decide +kernel
  obtain ⟨entry, hmem, hindex⟩ := happlying 0 (by decide)
  obtain ⟨entry', hmem', hindex'⟩ := happlying 1 (by decide)
  exact ⟨entry, hmem, entry', hmem', hindex, hindex', (execution_agreement threeOfFour
    (by decide +kernel) (by decide) (by decide)).1 _ _ (.inr (.inl ⟨_, hmem⟩))
    (.inr (.inl ⟨_, hmem'⟩)) (hindex.trans hindex'.symm)⟩

theorem commitQueue_in_order_commonBlock :
    (∃ n, (run threeOfFour.start []).applied 0 commonBlock = List.range' 3 n) ∧
      (run threeOfFour.start []).applied 0 commonBlock ≠ [] :=
  ⟨(@commitQueue_in_order threeOfFour [] commonBlock 0 (by decide) trivial
    (by decide +kernel)).2.2, by decide +kernel⟩

/-- A failed proposal is executed again, but its entry is erased: it is executed once more. -/
theorem failed_proposal_executed_twice : ∃ proposal : PBFTProposal,
    ((((startNode 0).updateCommitQueue proposal).onExecuteFinished 0 none).onProposalApplied
      |>.updateCommitQueue proposal).inFlight = [proposal, proposal] :=
  ⟨{ index := 3, hash := 11 }, by decide +kernel⟩

/-- A node takes a prepare of node `2` first for its commit and then, with the hash of the executed
block, for its checkpoint. -/
def retypedVotes (node : Nat) (hash executedHash : HashType) : List (Nat × Input) :=
  prePrepareTo node 0 hash ++ votesTo node 2 .preparePacket hash ++
    votesTo node 2 .commitPacket hash ++ execute node executedHash ++
    votesTo node 2 .checkPoint executedHash

/-- Node `2` prepares the proposals of four views, all of them in view `0`. -/
def forkedLedger : List (Nat × Input) :=
  prePrepareTo 2 0 11 ++ prePrepareTo 2 1 12 ++ prePrepareTo 2 2 111 ++ prePrepareTo 2 3 112 ++
    retypedVotes 0 11 111 ++ retypedVotes 1 12 112

/-- Two honest nodes store different blocks `3`.  The third one has sent neither a commit nor a
checkpoint, only prepares. -/
theorem ledger_fork :
    Along (fun net event => net.InDomain threeOfFour event ∧ net.Signed threeOfFour event)
      threeOfFour.start forkedLedger ∧
    ∃ stable ∈ (run threeOfFour.start forkedLedger 0).stored,
      ∃ stable' ∈ (run threeOfFour.start forkedLedger 1).stored,
        stable.index = 3 ∧ stable'.index = 3 ∧ stable.hash ≠ stable'.hash := by
  decide +kernel

end FourNodes

end Loki.Fisco
