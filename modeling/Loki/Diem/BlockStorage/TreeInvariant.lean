import Loki.Diem.BlockStorage.Links

/-!
# The representation invariant of the block tree

Every stored block is below the commit root or in the queue of pruned blocks, as long as no block
is added under a pruned parent: such a block is below no root and in no queue, and is never
removed.  No `expect` or `assert` fires as long as the highest certified block is not pruned.
-/

namespace Loki.Diem

open Loki.Foundation Relation Option Except Nat LinkableBlock

/-- The operations on a tree; `prune` is `find_blocks_to_prune` together with
`update_commit_id_and_process_pruned_blocks`. -/
inductive TreeOp where
  | insertBlock (block : ExecutedBlock)
  | insertQuorumCert (qc : QuorumCert)
  | updateRootId (rootId : HashValue)
  | prune (nextRootId : HashValue)

namespace BlockTree

variable (C : Crypto) (order : HashSetOrder)

def perform (t : BlockTree) : TreeOp → Outcome BlockTree
  | .insertBlock block => do
    let (_, t) ← t.insertBlock C block
    return t
  | .insertQuorumCert qc => t.insertQuorumCert C qc
  | .updateRootId rootId => t.updateRootId rootId
  | .prune nextRootId => do
    let ids ← t.findBlocksToPrune C order nextRootId
    return t.updateCommitIdAndProcessPrunedBlocks nextRootId ids

def Descendant (t : BlockTree) (id id' : HashValue) : Prop := id ∈ t.idToBlock ∧ t.Reaches id id'

end BlockTree

def TreeOp.Allowed (t : BlockTree) : TreeOp → Prop
  | .insertBlock block => ∀ parent, t.getBlock block.parentId = some parent →
      parent.round < block.round
  | .insertQuorumCert _ => True
  | .updateRootId rootId => t.Descendant t.rootId rootId
  | .prune nextRootId => t.Descendant t.commitRootId nextRootId

variable (maxPruned : Nat) (C : Crypto)

/-- A block is new and its parent is not pruned, or it is there with the same result; the highest
certified block is not pruned. -/
def TreeOp.Safe (t : BlockTree) : TreeOp → Prop
  | .insertBlock block =>
    match t.getBlock (block.id C) with
    | some existing => existing.computeResult = block.computeResult
    | none => block.parentId ∉ t.prunedBlockIds
  | .prune nextRootId => t.Reaches nextRootId t.highestCertifiedBlockId
  | _ => True

/-- Blocks may have any round here; the commit root moves down. -/
def TreeOp.Downward (t : BlockTree) : TreeOp → Prop
  | .prune nextRootId => t.Reaches t.commitRootId nextRootId
  | _ => True

namespace BlockTree

/-- A step of a run: the operation returns, and an error leaves the tree as it is. -/
inductive Step (C : Crypto) (order : HashSetOrder) (Permits : BlockTree → TreeOp → Prop) :
    BlockTree → BlockTree → Prop
  | ok {t t' : BlockTree} (op : TreeOp) (permitted : Permits t op)
      (eq_ok : t.perform C order op = .ok t') : Step C order Permits t t'
  | failed {t : BlockTree} (op : TreeOp) (permitted : Permits t op) (message : String)
      (eq_error : t.perform C order op = .error (.error message)) : Step C order Permits t t

/-- A tree that the permitted operations make of a new one. -/
def Reachable (order : HashSetOrder) (Permits : BlockTree → TreeOp → Prop) (t : BlockTree) : Prop :=
  ∃ root rootQuorumCert rootLedgerInfo maxPruned tc t₀,
    new C root rootQuorumCert rootLedgerInfo maxPruned tc = .ok t₀ ∧
      ReflTransGen (Step C order Permits) t₀ t

structure RepInvariant (t : BlockTree) : Prop where
  child_stored : ∀ (id : HashValue) (block : LinkableBlock), t.Reaches t.commitRootId id →
    t.idToBlock[id]? = some block → ∀ childId ∈ block.children,
      ∃ child, t.getBlock childId = some child ∧ child.parentId = id
  covered : ∀ id ∈ t.idToBlock, t.Reaches t.commitRootId id ∨ id ∈ t.prunedBlockIds
  disjoint : ∀ id ∈ t.prunedBlockIds, ¬t.Reaches t.commitRootId id
  nodup : t.prunedBlockIds.Nodup
  bounded : t.prunedBlockIds.length ≤ t.maxPrunedBlocksInMem

/-- No `expect` or `assert` fires. -/
def NoPanic (order : HashSetOrder) (t : BlockTree) (op : TreeOp) : Prop :=
  ∀ message, t.perform C order op ≠ .error (.panic message)

variable {C : Crypto} {order : HashSetOrder} {t t' : BlockTree} {qc : QuorumCert} {id : HashValue}
  {block : ExecutedBlock} {op : TreeOp} {Permits : BlockTree → TreeOp → Prop}
  {rank : HashValue → Nat}

theorem insertQuorumCert_spec (h : t.insertQuorumCert C qc = .ok t') :
    ∃ block highest, t.getBlock qc.certifiedBlock.id = some block ∧
      t.getBlock t.highestCertifiedBlockId = some highest ∧
      t' = { t with
        highestCertifiedBlockId :=
          if highest.round < block.round then block.id C else t.highestCertifiedBlockId
        highestQuorumCert := if highest.round < block.round then qc else t.highestQuorumCert
        idToQuorumCert := t.idToQuorumCert.insertIfNew qc.certifiedBlock.id qc
        highestCommitCert :=
          if t.highestCommitCert.commitInfo.round < qc.commitInfo.round then qc
          else t.highestCommitCert } := by
  simp only [insertQuorumCert, highestCertifiedBlock, bind_eq_ok, okOr_eq_ok, pure_eq_ok] at h
  obtain ⟨block, hblock, highest, hhighest, rfl⟩ := h
  refine ⟨block, highest, hblock, hhighest, ?_⟩
  split
  all_goals split
  all_goals rfl

theorem updateRootId_spec {rootId} (h : t.updateRootId rootId = .ok t') :
    rootId ∈ t.idToBlock ∧ t' = { t with rootId := rootId } := by
  simp only [updateRootId, bind_eq_ok, ensure_eq_ok, pure_eq_ok] at h
  obtain ⟨_, hmem, rfl⟩ := h
  exact ⟨hmem, rfl⟩

theorem Ranked.congr (h : t.Ranked C rank) (hblocks : t'.idToBlock = t.idToBlock)
    (hroot : t'.commitRootId = t.commitRootId) (hpruned : t'.prunedBlockIds = t.prunedBlockIds)
    (hmax : t'.maxPrunedBlocksInMem = t.maxPrunedBlocksInMem) : t'.Ranked C rank := by
  have hchild : t'.Child = t.Child := by
    funext p c
    rw [Child, Child, hblocks]
  constructor
  all_goals simp only [getBlock, getLinkableBlock, Reaches, hchild, hblocks, hroot, hpruned, hmax]
  · exact h.id_eq
  · exact h.child
  · exact h.commitRoot
  · exact h.pruned_stored
  · exact h.pruned_nodup
  · exact h.pruned_unreachable
  · exact h.pruned_ordered
  · exact h.parent_pruned
  · exact h.pruned_le

theorem perform_prune_spec (order) (h : t.Ranked C rank) {nextRootId}
    (hnext : t.Reaches t.commitRootId nextRootId) :
    ∃ ids t', t.perform C order (.prune nextRootId) = .ok t' ∧ t.PrunedBy nextRootId ids ∧
      t.Processed nextRootId ids t' := by
  obtain ⟨ids, hids, hpruned⟩ := findBlocksToPrune_spec h order hnext
  refine ⟨ids, _, ?_, hpruned, updateCommitId_processed t nextRootId ids⟩
  simp only [perform, hids, bind_eq_ok, pure_eq_ok]
  exact ⟨ids, rfl, rfl⟩

theorem allowed_downward (h : op.Allowed t) : op.Downward t := by
  cases op with
  | prune => exact h.2
  | _ => trivial

theorem Ranked.perform (h : t.Ranked C rank) (hop : op.Downward t)
    (hperform : t.perform C order op = .ok t') : ∃ rank', t'.Ranked C rank' := by
  cases op with
  | insertBlock =>
    simp only [BlockTree.perform, bind_eq_ok, pure_eq_ok] at hperform
    obtain ⟨⟨_, t''⟩, hinsert, rfl⟩ := hperform
    rcases insertBlock_spec hinsert with ⟨-, rfl⟩ | ⟨hnew, -, _, hparent, rfl⟩
    · exact ⟨rank, h⟩
    · exact ⟨_, h.withBlock hnew hparent (lt_succ_self _)⟩
  | insertQuorumCert =>
    obtain ⟨_, _, -, -, rfl⟩ := insertQuorumCert_spec hperform
    exact ⟨rank, h.congr rfl rfl rfl rfl⟩
  | updateRootId =>
    obtain ⟨-, rfl⟩ := updateRootId_spec hperform
    exact ⟨rank, h.congr rfl rfl rfl rfl⟩
  | prune =>
    obtain ⟨_, _, heq, hpruned, hdone⟩ := perform_prune_spec order h hop
    obtain rfl := ok.inj (heq.symm.trans hperform)
    exact ⟨rank, h.processed hop hpruned hdone⟩

theorem Reachable.ranked (hdown : ∀ t op, Permits t op → op.Downward t)
    (h : Reachable C order Permits t) : ∃ rank, t.Ranked C rank := by
  obtain ⟨_, _, _, _, _, _, hnew, hrun⟩ := h
  induction hrun with
  | refl => exact ⟨fun _ => 0, new_ranked hnew⟩
  | tail _ hstep ih =>
    obtain ⟨rank, h⟩ := ih
    cases hstep with
    | ok op permitted eq_ok => exact h.perform (hdown _ op permitted) eq_ok
    | failed => exact ⟨rank, h⟩

theorem getBlock_eq_none (h : id ∉ t.idToBlock) : t.getBlock id = none := by
  cases hget : t.getBlock id with
  | none => rfl
  | some => exact absurd (mem_of_getBlock hget) h

structure Covered (t : BlockTree) : Prop where
  covered : ∀ id ∈ t.idToBlock, t.Reaches t.commitRootId id ∨ id ∈ t.prunedBlockIds
  highest : t.highestCertifiedBlockId ∈ t.idToBlock

theorem new_covered {root rootQuorumCert rootLedgerInfo maxPruned tc}
    (h : new C root rootQuorumCert rootLedgerInfo maxPruned tc = .ok t) : t.Covered := by
  simp only [new, bind_eq_ok, pure_eq_ok] at h
  obtain ⟨_, -, rfl⟩ := h
  refine ⟨fun id hid => .inl ?_, by simp⟩
  obtain rfl : root.id C = id := by simpa using hid
  exact .refl

theorem Covered.perform (h : t.Ranked C rank) (hc : t.Covered) (hop : op.Allowed t)
    (hsafe : op.Safe C t) (hperform : t.perform C order op = .ok t') : t'.Covered := by
  cases op with
  | insertBlock block =>
    simp only [BlockTree.perform, bind_eq_ok, pure_eq_ok] at hperform
    obtain ⟨⟨stored, t''⟩, hinsert, rfl⟩ := hperform
    rcases insertBlock_spec hinsert with ⟨-, rfl⟩ | ⟨hnew, -, parent, hparent, rfl⟩
    · exact hc
    refine ⟨fun id hid => ?_, (withBlock_mem_iff hparent _).mpr (.inl hc.highest)⟩
    rw [withBlock_reaches_iff hnew hparent]
    rcases (withBlock_mem_iff hparent id).mp hid with hid | rfl
    · exact (hc.covered id hid).imp .inl fun hmem => hmem
    · -- the parent is not pruned, so it is below the commit root
      have hnone := getBlock_eq_none hnew
      have hnot : block.parentId ∉ t.prunedBlockIds := by simpa [TreeOp.Safe, hnone] using hsafe
      have hreach := (hc.covered _ (mem_iff_exists.mpr ⟨parent, hparent⟩)).resolve_right hnot
      exact .inl (.inr ⟨rfl, hreach⟩)
  | insertQuorumCert qc =>
    obtain ⟨_, highest, hblock, -, rfl⟩ := insertQuorumCert_spec hperform
    refine ⟨hc.covered, ?_⟩
    split
    · rw [h.id_eq hblock]
      exact mem_of_getBlock hblock
    · exact hc.highest
  | updateRootId =>
    obtain ⟨-, rfl⟩ := updateRootId_spec hperform
    exact ⟨hc.covered, hc.highest⟩
  | prune nextRootId =>
    obtain ⟨_, _, heq, hpruned, hdone⟩ := perform_prune_spec order h hop.2
    obtain rfl := ok.inj (heq.symm.trans hperform)
    refine ⟨fun id hid => ?_, ?_⟩
    · obtain ⟨hev, hid⟩ := (processed_mem_iff hdone).mp hid
      rw [processed_commitRoot_reaches_iff h hop.2 hpruned hdone,
        processed_pruned_iff h hpruned hdone]
      by_cases hreach : t.Reaches nextRootId id
      · exact .inl hreach
      · refine .inr ⟨?_, hev⟩
        rcases hc.covered id hid with hbelow | hold
        · exact List.mem_append_right _ ((hpruned.mem_iff id).mpr ⟨hbelow, hreach⟩)
        · exact List.mem_append_left _ hold
    · rw [hdone.highestCertifiedBlockId]
      exact processed_mem_of_reaches h hop.2 hpruned hdone hsafe

theorem insertBlock_of_missing (hnew : block.id C ∉ t.idToBlock)
    (hparent : t.idToBlock[block.parentId]? = none) :
    ∃ message, t.insertBlock C block = .error (.error message) := by
  simp only [insertBlock, getBlock_eq_none hnew, getLinkableBlock, hparent]
  exact ⟨_, rfl⟩

theorem insertBlock_of_parent (h : t.Ranked C rank) {parent}
    (hnew : block.id C ∉ t.idToBlock) (hparent : t.idToBlock[block.parentId]? = some parent) :
    t.insertBlock C block = .ok (block, t.withBlock C parent block) := by
  -- a child link to the block would need the block to be stored
  have hchild : block.id C ∉ parent.children := fun hc =>
    hnew (h.stored_of_child ⟨parent, hparent, hc⟩)
  have hne := id_ne_parentId hnew hparent
  simp only [insertBlock, getBlock_eq_none hnew, addChild, bind_eq_ok, ensure_eq_ok,
    okOr_eq_ok, pure_eq_ok]
  refine ⟨parent, hparent, _, ⟨(), hchild, rfl⟩, (), ?_, rfl⟩
  simpa [hne.symm] using hnew

theorem insertQuorumCert_ok (hget : t.getBlock qc.certifiedBlock.id = some block)
    (hhighest : t.highestCertifiedBlockId ∈ t.idToBlock) :
    ∃ t', t.insertQuorumCert C qc = .ok t' := by
  obtain ⟨highest, hhighest⟩ := exists_getBlock hhighest
  simp only [insertQuorumCert, highestCertifiedBlock, bind_eq_ok, okOr_eq_ok, pure_eq_ok]
  exact ⟨_, block, hget, highest, hhighest, rfl⟩

theorem insertQuorumCert_of_missing (h : qc.certifiedBlock.id ∉ t.idToBlock) :
    ∃ message, t.insertQuorumCert C qc = .error (.error message) := by
  simp only [insertQuorumCert, getBlock_eq_none h]
  exact ⟨_, rfl⟩

theorem noPanic_of_ok (h : t.perform C order op = .ok t') : t.NoPanic C order op := by
  intro _ hpanic
  rw [h] at hpanic
  cases hpanic

theorem noPanic_of_error {message} (h : t.perform C order op = .error (.error message)) :
    t.NoPanic C order op := by
  intro _ hpanic
  rw [h] at hpanic
  cases hpanic

theorem noPanic_of_safe (h : t.Ranked C rank) (hc : t.Covered) (hop : op.Allowed t)
    (hsafe : op.Safe C t) : t.NoPanic C order op := by
  cases op with
  | insertBlock block =>
    cases hget : t.getBlock (block.id C) with
    | some existing =>
      have hsame : existing.computeResult = block.computeResult := by
        simpa [TreeOp.Safe, hget] using hsafe
      have hperform : t.perform C order (.insertBlock block) = .ok t := by
        simp [perform, insertBlock, hget, hsame, ensure]
      exact noPanic_of_ok hperform
    | none =>
      have hnew : block.id C ∉ t.idToBlock := by
        intro hmem
        obtain ⟨_, hexisting⟩ := exists_getBlock hmem
        cases hget.symm.trans hexisting
      cases hparent : t.idToBlock[block.parentId]? with
      | none =>
        obtain ⟨message, heq⟩ := insertBlock_of_missing hnew hparent
        have hperform : t.perform C order (.insertBlock block) =
            .error (.error message) := by
          simp only [perform, heq]
          rfl
        exact noPanic_of_error hperform
      | some parent =>
        have hperform : t.perform C order (.insertBlock block) =
            .ok (t.withBlock C parent block) := by
          simp only [perform, insertBlock_of_parent h hnew hparent]
          rfl
        exact noPanic_of_ok hperform
  | insertQuorumCert qc =>
    cases hget : t.getBlock qc.certifiedBlock.id with
    | none =>
      have hmissing : qc.certifiedBlock.id ∉ t.idToBlock := by
        intro hmem
        obtain ⟨_, hblock⟩ := exists_getBlock hmem
        cases hget.symm.trans hblock
      obtain ⟨_, heq⟩ := insertQuorumCert_of_missing hmissing
      exact noPanic_of_error heq
    | some =>
      obtain ⟨t', heq⟩ := insertQuorumCert_ok hget hc.highest
      exact noPanic_of_ok heq
  | updateRootId rootId =>
    have hmem := h.stored_of_reaches hop.1 hop.2
    have hperform : t.perform C order (.updateRootId rootId) =
        .ok { t with rootId := rootId } := by
      simp [perform, updateRootId, hmem, ensure]
    exact noPanic_of_ok hperform
  | prune =>
    obtain ⟨_, _, heq, -⟩ := perform_prune_spec order h hop.2
    exact noPanic_of_ok heq

theorem Ranked.repInvariant (h : t.Ranked C rank) (hc : t.Covered) : t.RepInvariant where
  child_stored := by
    intro _ block _ hblock _ hchild
    obtain ⟨child, hget, hparent, -⟩ := h.child ⟨block, hblock, hchild⟩
    exact ⟨child, hget, hparent⟩
  covered := hc.covered
  disjoint := h.pruned_unreachable
  nodup := h.pruned_nodup
  bounded := h.pruned_le

section

variable (C : Crypto) (order : HashSetOrder)

/-- The representation invariant holds in every run whose operations are safe, and none of them
panics. -/
theorem run_repInvariant (root : ExecutedBlock)
    (rootQuorumCert rootLedgerInfo : QuorumCert) (maxPruned : Nat) (tc : Option TimeoutCertificate)
    (t₀ t : BlockTree) (hnew : new C root rootQuorumCert rootLedgerInfo maxPruned tc = .ok t₀)
    (hrun : ReflTransGen (Step C order fun t op => op.Allowed t ∧ op.Safe C t) t₀ t) :
    t.RepInvariant ∧ ∀ op : TreeOp, op.Allowed t → op.Safe C t → t.NoPanic C order op := by
  have hranked : ∀ {t}, ReflTransGen (Step C order fun t op => op.Allowed t ∧ op.Safe C t) t₀ t →
      ∃ rank, t.Ranked C rank := fun hrun =>
    Reachable.ranked (fun _ _ hop => allowed_downward hop.1) ⟨_, _, _, _, _, _, hnew, hrun⟩
  have hcovered : t.Covered := by
    induction hrun with
    | refl => exact new_covered hnew
    | tail hrun hstep ih =>
      cases hstep with
      | ok _ permitted eq_ok =>
        obtain ⟨_, hbefore⟩ := hranked hrun
        exact ih.perform hbefore permitted.1 permitted.2 eq_ok
      | failed => exact ih
  obtain ⟨_, hlinked⟩ := hranked hrun
  exact ⟨hlinked.repInvariant hcovered, fun _ => noPanic_of_safe hlinked hcovered⟩

/-! ## Pruning in every reachable tree -/

/-- Exactly the blocks that are not below the next root are found, each once and after its parent,
and processing them leaves what is below the next root as it was. -/
theorem findBlocksToPrune_exact (t : BlockTree)
    (nextRootId : HashValue) (h : Reachable C order (fun t op => op.Downward t) t)
    (hnext : TransGen t.Child t.commitRootId nextRootId) :
    ∃ ids, t.findBlocksToPrune C order nextRootId = .ok ids ∧ ids.Nodup ∧
      (ids.Pairwise fun id id' => ¬t.Child id' id) ∧
      (∀ id, id ∈ ids ↔ t.Reaches t.commitRootId id ∧ ¬t.Reaches nextRootId id) ∧
      ∀ t', t' = t.updateCommitIdAndProcessPrunedBlocks nextRootId ids →
        ∀ id, (t'.Reaches t'.commitRootId id ↔ t.Reaches nextRootId id) ∧
          (t.Reaches nextRootId id → t'.idToBlock[id]? = t.idToBlock[id]?) := by
  obtain ⟨_, h⟩ := h.ranked fun _ _ hop => hop
  obtain ⟨ids, hids, hp⟩ := findBlocksToPrune_spec h order hnext.to_reflTransGen
  refine ⟨ids, hids, hp.nodup, hp.ordered, hp.mem_iff, ?_⟩
  rintro _ rfl id
  have hdone := updateCommitId_processed t nextRootId ids
  refine ⟨processed_commitRoot_reaches_iff h hnext.to_reflTransGen hp hdone, fun hid => ?_⟩
  have hkept : id ∉ t.evicted ids := fun hmem =>
    queue_not_reaches h hnext.to_reflTransGen hp (List.mem_of_mem_take hmem) hid
  rw [hdone.idToBlock, if_neg hkept]

/-! ## Runs on four blocks -/

def after (t : BlockTree) (op : TreeOp) : BlockTree :=
  (t.perform C order op).toOption.getD t

end

theorem step_after (permitted : Permits t op) (hok : (t.perform C order op).isOk = true) :
    Step C order Permits t (t.after C order op) := by
  refine .ok op permitted ?_
  unfold after
  cases h : t.perform C order op with
  | ok => rfl
  | error =>
    rw [h] at hok
    cases hok

theorem eq_of_reaches_leaf {id'}
    (hleaf : (t.idToBlock[id]?.map children) = some ∅) (h : t.Reaches id id') : id' = id := by
  rcases h.cases_head with heq | ⟨c, ⟨_, hblock, hc⟩, -⟩
  · exact heq.symm
  · rw [hblock, map_some, some.injEq] at hleaf
    rw [hleaf] at hc
    exact absurd hc (Finset.notMem_empty _)

end BlockTree

def Crypto.byRound : Crypto :=
  { Crypto.concrete with
    hash := fun
      | .blockData data => data.round
      | _ => 0 }

def roundCert (round : Nat) : QuorumCert where
  voteData := {
    proposed := { BlockInfo.empty with round := round, id := round }
    parent := BlockInfo.empty }
  signedLedgerInfo := {
    ledgerInfo := { commitInfo := BlockInfo.empty, consensusDataHash := 0 }
    signatures := ∅ }

/-- An empty block over the block of round `parent`. -/
def roundBlock (parent round : Nat) : ExecutedBlock where
  block := {
    blockData := {
      epoch := 0
      round := round
      timestampUsecs := 0
      quorumCert := roundCert parent
      blockType := .nilBlock }
    signature := none }
  stateComputeResult := default

namespace BlockTree

def single : BlockTree where
  idToBlock := (∅ : BTreeMap HashValue LinkableBlock).insert 0 (.new (roundBlock 0 0))
  rootId := 0
  commitRootId := 0
  highestCertifiedBlockId := 0
  highestQuorumCert := roundCert 0
  highestTimeoutCert := none
  highestCommitCert := roundCert 0
  idToQuorumCert := (∅ : BTreeMap HashValue QuorumCert).insert 0 (roundCert 0)
  prunedBlockIds := []
  maxPrunedBlocksInMem := maxPruned

theorem new_single :
    new .byRound (roundBlock 0 0) (roundCert 0) (roundCert 0) maxPruned none =
      .ok (single maxPruned) := rfl

def forked : BlockTree :=
  ((single maxPruned).after .byRound .sorted (.insertBlock (roundBlock 0 1))).after .byRound
    .sorted (.insertBlock (roundBlock 0 2))

theorem forked_child_one : (forked maxPruned).Child 0 1 := ⟨_, rfl, by decide⟩

theorem run_forked {Permits} (hone : Permits (single maxPruned) (.insertBlock (roundBlock 0 1)))
    (htwo : Permits ((single maxPruned).after .byRound .sorted (.insertBlock (roundBlock 0 1)))
      (.insertBlock (roundBlock 0 2))) :
    ReflTransGen (Step .byRound .sorted Permits) (single maxPruned) (forked maxPruned) :=
  .tail (.tail .refl (step_after hone rfl)) (step_after htwo rfl)

theorem allowed_insertBlock_zero {round} (hround : 0 < round)
    (h : (t.idToBlock[0]?.map fun block => block.executedBlock.round) = some 0) :
    (TreeOp.insertBlock (roundBlock 0 round)).Allowed t := by
  intro _ hparent
  obtain ⟨stored, hstored, rfl⟩ := getBlock_eq_some_iff.mp hparent
  have hzero : t.idToBlock[0]? = some stored := hstored
  rw [hzero, map_some, some.injEq] at h
  rw [h]
  exact hround

def committed : BlockTree :=
  ((forked 10).after .byRound .sorted (.insertQuorumCert (roundCert 1))).after .byRound .sorted
    (.prune 1)

theorem run_repInvariant_committed :
    ReflTransGen (Step .byRound .sorted fun t op => op.Allowed t ∧ op.Safe .byRound t) (single 10)
      committed ∧
    committed.commitRootId = 1 ∧ committed.prunedBlockIds = [0, 2] ∧ committed.RepInvariant ∧
    committed.NoPanic .byRound .sorted (.insertQuorumCert (roundCert 2)) := by
  have hqc : (TreeOp.insertQuorumCert (roundCert 1)).Allowed (forked 10) ∧
      (TreeOp.insertQuorumCert (roundCert 1)).Safe .byRound (forked 10) := ⟨trivial, trivial⟩
  have hrun : ReflTransGen (Step .byRound .sorted fun t op => op.Allowed t ∧ op.Safe .byRound t)
      (single 10) committed := by
    refine .tail (.tail (run_forked 10 ⟨?_, ?_⟩ ⟨?_, ?_⟩) (step_after hqc rfl))
      (step_after ⟨?_, ?_⟩ rfl)
    · exact allowed_insertBlock_zero one_pos rfl
    · exact (by decide : (0 : HashValue) ∉ (single 10).prunedBlockIds)
    · exact allowed_insertBlock_zero two_pos rfl
    · exact (by decide : (0 : HashValue) ∉ (single 10).prunedBlockIds)
    · exact ⟨by decide +kernel, .single ⟨_, rfl, by decide⟩⟩
    · exact .refl
  obtain ⟨hinvariant, hpanic⟩ := run_repInvariant .byRound .sorted _ _ _ 10 none _ committed
    (new_single 10) hrun
  exact ⟨hrun, rfl, by decide +kernel, hinvariant, hpanic _ trivial trivial⟩

def leaking : BlockTree :=
  ((forked 10).after .byRound .sorted (.prune 1)).after .byRound .sorted
    (.insertBlock (roundBlock 2 3))

def dangling : BlockTree :=
  ((forked 0).after .byRound .sorted (.insertQuorumCert (roundCert 2))).after .byRound .sorted
    (.prune 1)

/-- A child of a pruned block is neither below the commit root nor in the queue, and a certificate
for a block that is still there panics when the highest certified block is gone. -/
theorem run_repInvariant_fails :
    (new .byRound (roundBlock 0 0) (roundCert 0) (roundCert 0) 10 none = .ok (single 10) ∧
      ReflTransGen (Step .byRound .sorted fun t op => op.Allowed t) (single 10) leaking ∧
      ¬leaking.RepInvariant) ∧
    new .byRound (roundBlock 0 0) (roundCert 0) (roundCert 0) 0 none = .ok (single 0) ∧
      ReflTransGen (Step .byRound .sorted fun t op => op.Allowed t) (single 0) dangling ∧
      (TreeOp.insertQuorumCert (roundCert 1)).Allowed dangling ∧
      ¬dangling.NoPanic .byRound .sorted (.insertQuorumCert (roundCert 1)) := by
  have hone : ∀ maxPruned, (TreeOp.insertBlock (roundBlock 0 1)).Allowed (single maxPruned) :=
    fun _ => allowed_insertBlock_zero one_pos rfl
  have htwo : ∀ maxPruned, (TreeOp.insertBlock (roundBlock 0 2)).Allowed
      ((single maxPruned).after .byRound .sorted (.insertBlock (roundBlock 0 1))) :=
    fun _ => allowed_insertBlock_zero two_pos rfl
  have hqc : (TreeOp.insertQuorumCert (roundCert 2)).Allowed (forked 0) := trivial
  refine ⟨⟨rfl, ?_, fun hinvariant => ?_⟩, rfl, ?_, trivial, fun hpanic => hpanic _ rfl⟩
  · refine .tail (.tail (run_forked 10 (hone 10) (htwo 10)) (step_after ?_ rfl))
      (step_after ?_ rfl)
    · exact ⟨by decide +kernel, .single (forked_child_one 10)⟩
    · intro _ hparent
      cases hparent
      decide
  · rcases hinvariant.covered 3 (by decide +kernel) with hreach | hpruned
    · exact absurd (eq_of_reaches_leaf rfl hreach) (by decide +kernel)
    · exact absurd hpruned (by decide +kernel)
  · refine .tail (.tail (run_forked 0 (hone 0) (htwo 0)) (step_after hqc rfl))
      (step_after ?_ rfl)
    exact ⟨by decide +kernel, .single ⟨_, rfl, by decide⟩⟩

theorem findBlocksToPrune_exact_forked :
    (forked 0).findBlocksToPrune .byRound .sorted 1 = .ok [0, 2] ∧
      ∀ id, id ∈ [0, 2] ↔ (forked 0).Reaches 0 id ∧ ¬(forked 0).Reaches 1 id := by
  obtain ⟨ids, hids, -, -, hmem, -⟩ := findBlocksToPrune_exact .byRound .sorted (forked 0) 1
    ⟨_, _, _, 0, none, _, new_single 0, run_forked 0 trivial trivial⟩
    (.single (forked_child_one 0))
  obtain rfl : [0, 2] = ids := ok.inj (Eq.trans (by decide +kernel) hids)
  exact ⟨hids, hmem⟩

end BlockTree

end Loki.Diem
