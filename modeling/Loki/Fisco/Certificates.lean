import Loki.Fisco.VoteWeight

/-!
# Certificates

A precommit brings signatures of its proposal's hash, and a new view brings view changes.  Both
lists are summed entry by entry.  What an accepted list guarantees is the weight of the distinct
nodes that it names, and for a new view only of those whose signature is on a view change for the
view of the new view.
-/

namespace Loki.Fisco

open Finset NewViewMsg List

namespace PBFTConfig

def IsQuorum (config : PBFTConfig) (S : Finset Nat) : Prop :=
  (∀ i ∈ S, i < config.consensusNodeList.length) ∧
    config.minRequiredQuorum ≤ ∑ i ∈ S, nodeWeight config.consensusNodeList i

instance (config : PBFTConfig) (S : Finset Nat) : Decidable (config.IsQuorum S) :=
  inferInstanceAs (Decidable (_ ∧ _))

/-- Whatever else has been signed: if the nodes have made the signatures that are shown, a quorum
has signed hashes of the kind that is asked for. -/
def Guarantees (config : PBFTConfig) (shown : Nat → HashType → Prop) (kind : HashType → Prop) :
    Prop :=
  ∀ signed : Nat → HashType → Prop, (∀ i hash, shown i hash → signed i hash) →
    ∃ S, config.IsQuorum S ∧ ∀ i ∈ S, ∃ hash, kind hash ∧ signed i hash

variable {config : PBFTConfig}

theorem guarantees_iff {shown} {kind : HashType → Prop} {S}
    (hS : ∀ i, i ∈ S ↔ ∃ hash, kind hash ∧ shown i hash)
    (hnodes : ∀ i ∈ S, i < config.consensusNodeList.length) :
    config.Guarantees shown kind ↔ config.IsQuorum S := by
  constructor
  · intro h
    obtain ⟨Q, hQ, hsigned⟩ := h shown fun _ _ => id
    have hsub : Q ⊆ S := fun i hi => (hS i).mpr (hsigned i hi)
    exact ⟨hnodes, hQ.2.trans (sum_le_sum_of_subset hsub)⟩
  · intro h _ hshown
    refine ⟨S, h, fun i hi => ?_⟩
    obtain ⟨hash, hkind, hi⟩ := (hS i).mp hi
    exact ⟨hash, hkind, hshown i hash hi⟩

/-! ### Precommits -/

def ShowsProof (config : PBFTConfig) (proposal : PBFTProposal) (i : Nat) (hash : HashType) : Prop :=
  hash = proposal.hash ∧ ∃ signature node, (i, signature) ∈ proposal.signatureProof ∧
    config.consensusNodeList[i]? = some node ∧
    config.cryptoSuite.verify node.nodeID hash signature = true

theorem addProof_eq_some {hash} {weight weight' : Nat} {proof}
    (h : config.addProof hash weight proof = some weight') :
    ∃ node, config.consensusNodeList[proof.1]? = some node ∧
      config.cryptoSuite.verify node.nodeID hash proof.2 = true := by
  unfold addProof getConsensusNodeByIndex at h
  cases hnode : config.consensusNodeList[proof.1]? with
  | none => simp [hnode] at h
  | some node =>
    simp only [hnode] at h
    split at h
    next hverify => exact ⟨node, rfl, hverify⟩
    · cases h

theorem foldlM_addProof_eq_some {hash} {proofs : List (Nat × Signature)}
    {weight weight'} (h : proofs.foldlM (config.addProof hash) weight = some weight') :
    ∀ proof ∈ proofs, ∃ node, config.consensusNodeList[proof.1]? = some node ∧
      config.cryptoSuite.verify node.nodeID hash proof.2 = true := by
  induction proofs generalizing weight with
  | nil => simp
  | cons _ _ ih =>
    rw [foldlM_cons, Option.bind_eq_bind, Option.bind_eq_some_iff] at h
    obtain ⟨_, hproof, hrest⟩ := h
    exact forall_mem_cons.mpr ⟨addProof_eq_some hproof, ih hrest⟩

theorem checkPrecommitWeight_guarantees {proposal}
    (h : config.checkPrecommitWeight proposal = true) :
    config.Guarantees (config.ShowsProof proposal) (· = proposal.hash) ↔
      config.IsQuorum (proposal.signatureProof.map (·.1)).toFinset := by
  have hproofs : ∀ proof ∈ proposal.signatureProof,
      ∃ node, config.consensusNodeList[proof.1]? = some node ∧
        config.cryptoSuite.verify node.nodeID proposal.hash proof.2 = true := by
    unfold checkPrecommitWeight at h
    split at h
    · cases h
    next _ hfold => exact foldlM_addProof_eq_some hfold
  apply guarantees_iff
  · intro i
    constructor
    · intro hi
      obtain ⟨⟨i, signature⟩, hmem, rfl⟩ := mem_map.mp (mem_toFinset.mp hi)
      obtain ⟨node, hnode, hverify⟩ := hproofs _ hmem
      exact ⟨proposal.hash, rfl, rfl, signature, node, hmem, hnode, hverify⟩
    · rintro ⟨_, -, -, _, node, hmem, -⟩
      exact mem_toFinset.mpr (mem_map.mpr ⟨_, hmem, rfl⟩)
  · intro i hi
    obtain ⟨proof, hmem, rfl⟩ := mem_map.mp (mem_toFinset.mp hi)
    obtain ⟨_, hnode, -⟩ := hproofs proof hmem
    exact (List.getElem?_eq_some_iff.mp hnode).1

/-! ### New views -/

def ShowsViewChange (config : PBFTConfig) (msg : NewViewMsg) (i : Nat) (hash : HashType) : Prop :=
  ∃ viewChange ∈ msg.viewChangeMsgList, viewChange.generatedFrom = i ∧
    viewChange.signatureDataHash = hash ∧ ∃ node, config.consensusNodeList[i]? = some node ∧
      viewChange.verifySignature config.cryptoSuite node.nodeID = true

end PBFTConfig

open PBFTConfig

variable (changes : List (Nat × Nat)) (suite : CryptoSuite)

def CryptoSuite.IsViewChangeFor (view : Nat) (hash : HashType) : Prop :=
  ∃ payLoad : ViewChangePayload, payLoad.view = view ∧ suite.hash (.viewChange payLoad) = hash

open Classical in
noncomputable def NewViewMsg.viewChangeSenders (msg : NewViewMsg) :
    Finset Nat :=
  ((msg.viewChangeMsgList.filter fun viewChange =>
    suite.IsViewChangeFor msg.view viewChange.signatureDataHash).map (·.generatedFrom)).toFinset

theorem NewViewMsg.mem_viewChangeSenders {suite} {msg : NewViewMsg} {i} :
    i ∈ msg.viewChangeSenders suite ↔ ∃ viewChange ∈ msg.viewChangeMsgList,
      suite.IsViewChangeFor msg.view viewChange.signatureDataHash ∧
        viewChange.generatedFrom = i := by
  simp [viewChangeSenders, and_assoc]

namespace PBFTEngine

variable {s : PBFTEngine}

theorem isValidViewChangeMsg_signed {msg} (h : (s.isValidViewChangeMsg msg).2 = true) :
    ∃ node, s.config.consensusNodeList[msg.generatedFrom]? = some node ∧
      msg.verifySignature s.config.cryptoSuite node.nodeID = true := by
  have hchain := Moves.sameChain
    (s.isValidViewChangeMsg_moves (R := ⟨fun _ _ => True, fun _ => True⟩) msg)
  unfold isValidViewChangeMsg at h hchain
  split at h
  · cases h
  next hindex =>
    rw [if_neg hindex] at hchain
    have hnodes : (s.answerViewChange msg).config.consensusNodeList = s.config.consensusNodeList :=
      hchain.consensusNodeList
    have hsuite : (s.answerViewChange msg).config.cryptoSuite = s.config.cryptoSuite :=
      hchain.cryptoSuite
    simp only [acceptsViewChange, Bool.and_eq_true] at h
    have hsignature := h.2
    unfold checkSignature getConsensusNodeByIndex at hsignature
    rw [hnodes] at hsignature
    split at hsignature
    · cases hsignature
    next node hnode => exact ⟨node, hnode, hsuite ▸ hsignature⟩

theorem checkViewChanges_signed {weight weight'} {msgs : List ViewChangeMsg}
    (h : (s.checkViewChanges weight msgs).2 = some weight') :
    ∀ msg ∈ msgs, ∃ node, s.config.consensusNodeList[msg.generatedFrom]? = some node ∧
      msg.verifySignature s.config.cryptoSuite node.nodeID = true := by
  induction msgs generalizing s weight with
  | nil => simp
  | cons msg msgs ih =>
    have hchain := Moves.sameChain
      (s.isValidViewChangeMsg_moves (R := ⟨fun _ _ => True, fun _ => True⟩) msg)
    have hmsg := @isValidViewChangeMsg_signed s msg
    unfold checkViewChanges at h
    split at h
    · cases h
    next next heq =>
      rw [heq] at hchain hmsg
      have hnodes : next.config.consensusNodeList = s.config.consensusNodeList :=
        hchain.consensusNodeList
      have hsuite : next.config.cryptoSuite = s.config.cryptoSuite := hchain.cryptoSuite
      have hrest : ∀ m ∈ msgs, ∃ node,
          next.config.consensusNodeList[m.generatedFrom]? = some node ∧
            m.verifySignature next.config.cryptoSuite node.nodeID = true := by
        split at h
        · exact ih h
        · exact ih h
      rw [hnodes, hsuite] at hrest
      exact forall_mem_cons.mpr ⟨hmsg rfl, hrest⟩

theorem isValidNewViewMsg_guarantees {msg} (h : (s.isValidNewViewMsg msg).2 = true) :
    s.config.Guarantees (s.config.ShowsViewChange msg)
        (s.config.cryptoSuite.IsViewChangeFor msg.view) ↔
      s.config.IsQuorum (msg.viewChangeSenders s.config.cryptoSuite) := by
  have hlist : ∀ viewChange ∈ msg.viewChangeMsgList,
      ∃ node, s.config.consensusNodeList[viewChange.generatedFrom]? = some node ∧
        viewChange.verifySignature s.config.cryptoSuite node.nodeID = true := by
    unfold isValidNewViewMsg at h
    split at h
    · cases h
    split at h
    · cases h
    next heq => exact checkViewChanges_signed (by rw [heq])
  apply guarantees_iff
  · intro i
    rw [mem_viewChangeSenders]
    constructor
    · rintro ⟨viewChange, hmem, hkind, rfl⟩
      obtain ⟨node, hnode, hverify⟩ := hlist viewChange hmem
      exact ⟨_, hkind, viewChange, hmem, rfl, rfl, node, hnode, hverify⟩
    · rintro ⟨_, hkind, viewChange, hmem, rfl, rfl, -⟩
      exact ⟨viewChange, hmem, hkind, rfl⟩
  · intro i hi
    obtain ⟨viewChange, hmem, -, rfl⟩ := mem_viewChangeSenders.mp hi
    obtain ⟨_, hnode, -⟩ := hlist viewChange hmem
    exact (List.getElem?_eq_some_iff.mp hnode).1

end PBFTEngine

section FourNodes

def certifiedBy (signers : List Nat) : PBFTProposal where
  index := 3
  hash := 11
  signatureProof := signers.map fun i => (i, pairingSuite.sign i 11)

def viewChangeOf (node view : Nat) : ViewChangeMsg :=
  ({ view := view, index := 2, hash := 7, generatedFrom := node
     committedProposal := { index := 2, hash := 7 }, preparedProposals := [] } :
    ViewChangeMsg).encode pairingSuite node

/-- A new view of view `1` with view changes of nodes for views. -/
def newViewOf : NewViewMsg :=
  ({ view := 1, index := 2, hash := 7, generatedFrom := 1
     viewChangeMsgList := changes.map fun change => viewChangeOf change.1 change.2
     prePrepareList := [] } : NewViewMsg).encode pairingSuite 1

theorem isViewChangeFor_viewChangeOf (node view view' : Nat) :
    pairingSuite.IsViewChangeFor view (viewChangeOf node view').signatureDataHash ↔
      view' = view := by
  constructor
  · rintro ⟨_, rfl, hhash⟩
    simp only [pairingSuite, viewChangeOf, ViewChangeMsg.encode, Nat.add_right_cancel_iff] at hhash
    have hpair := Nat.eq_of_mul_eq_mul_left (by decide) hhash
    exact (Nat.pair_eq_pair.mp (Nat.pair_eq_pair.mp hpair).1).1.symm
  · rintro rfl
    exact ⟨(viewChangeOf node view').toViewChangePayload, rfl, rfl⟩

theorem viewChangeSenders_newViewOf :
    (newViewOf changes).viewChangeSenders pairingSuite =
      ((changes.filter (·.2 = 1)).map (·.1)).toFinset := by
  ext i
  rw [mem_viewChangeSenders, List.mem_toFinset, List.mem_map]
  constructor
  · rintro ⟨_, hmem, hkind, rfl⟩
    obtain ⟨change, hchange, rfl⟩ := mem_map.mp hmem
    have hview : change.2 = 1 := (isViewChangeFor_viewChangeOf _ _ _).mp hkind
    exact ⟨change, mem_filter.mpr ⟨hchange, by simpa using hview⟩, rfl⟩
  · rintro ⟨change, hmem, rfl⟩
    rw [mem_filter, decide_eq_true_iff] at hmem
    exact ⟨_, mem_map.mpr ⟨change, hmem.1, rfl⟩,
      (isViewChangeFor_viewChangeOf _ _ _).mpr hmem.2, rfl⟩

end FourNodes

/-- What the certificates that the engine accepts are worth. -/
theorem certificate_guarantees (s : PBFTEngine) :
    (∀ proposal, s.config.checkPrecommitWeight proposal = true →
      (s.config.Guarantees (s.config.ShowsProof proposal) (· = proposal.hash) ↔
        s.config.IsQuorum (proposal.signatureProof.map (·.1)).toFinset)) ∧
    ∀ msg, (s.isValidNewViewMsg msg).2 = true →
      (s.config.Guarantees (s.config.ShowsViewChange msg)
          (s.config.cryptoSuite.IsViewChangeFor msg.view) ↔
        s.config.IsQuorum (msg.viewChangeSenders s.config.cryptoSuite)) :=
  ⟨fun _ => checkPrecommitWeight_guarantees,
    fun _ => PBFTEngine.isValidNewViewMsg_guarantees⟩

theorem certificate_guarantees_three :
    (startNode 0).config.Guarantees ((startNode 0).config.ShowsProof (certifiedBy [0, 1, 2]))
      (· = 11) ∧
    (startNode 0).config.Guarantees
      ((startNode 0).config.ShowsViewChange (newViewOf [(1, 1), (2, 1), (3, 1)]))
      (pairingSuite.IsViewChangeFor 1) := by
  obtain ⟨hprecommit, hnewView⟩ := certificate_guarantees (startNode 0)
  refine ⟨(hprecommit (certifiedBy [0, 1, 2]) (by decide +kernel)).mpr (by decide +kernel),
    (hnewView (newViewOf [(1, 1), (2, 1), (3, 1)]) (by decide +kernel)).mpr ?_⟩
  rw [show (startNode 0).config.cryptoSuite = pairingSuite from rfl, viewChangeSenders_newViewOf]
  decide +kernel

/-- One signature is named three times, one view change is listed three times, and view changes for
view `2` make up a new view of view `1`. -/
theorem certificate_without_quorum :
    ((startNode 0).config.checkPrecommitWeight (certifiedBy [0, 0, 0]) = true ∧
      ¬ (startNode 0).config.Guarantees
        ((startNode 0).config.ShowsProof (certifiedBy [0, 0, 0])) (· = 11)) ∧
    ∀ changes ∈ [[(1, 1), (1, 1), (1, 1)], [(1, 2), (2, 2), (3, 2)]],
      ((startNode 0).isValidNewViewMsg (newViewOf changes)).2 = true ∧
      ¬ (startNode 0).config.Guarantees
        ((startNode 0).config.ShowsViewChange (newViewOf changes))
        (pairingSuite.IsViewChangeFor 1) := by
  have hvalid : ∀ changes ∈ [[(1, 1), (1, 1), (1, 1)], [(1, 2), (2, 2), (3, 2)]],
      ((startNode 0).isValidNewViewMsg (newViewOf changes)).2 = true := by decide +kernel
  have hsenders : ∀ changes ∈ [[(1, 1), (1, 1), (1, 1)], [(1, 2), (2, 2), (3, 2)]],
      ¬ (startNode 0).config.IsQuorum ((changes.filter (·.2 = 1)).map (·.1)).toFinset := by
    decide +kernel
  have hproof : (startNode 0).config.checkPrecommitWeight (certifiedBy [0, 0, 0]) = true := by
    decide +kernel
  refine ⟨⟨hproof, ?_⟩, fun changes hmem => ⟨hvalid changes hmem, ?_⟩⟩
  · exact (checkPrecommitWeight_guarantees hproof).not.mpr (by decide +kernel)
  · refine (PBFTEngine.isValidNewViewMsg_guarantees (hvalid changes hmem)).not.mpr ?_
    rw [show (startNode 0).config.cryptoSuite = pairingSuite from rfl, viewChangeSenders_newViewOf]
    exact hsenders changes hmem

end Loki.Fisco
