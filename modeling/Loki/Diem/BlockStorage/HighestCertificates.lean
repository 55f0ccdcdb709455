import Loki.Diem.BlockStorage.Ancestry
import Loki.Diem.BlockStorage.BlockStore

/-!
# The highest certificates of the block store

Pruning does not look at the highest certified block.  That it never removes it follows from
agreement: a committed block is an ancestor of every certified block of a higher round, and so the
root moves towards the highest certified block as long as no block is committed ahead of it.
-/

namespace Loki.Diem

open Loki.Foundation Relation BlockTree List BlockStore Option

/-! ## Runs -/

/-- A store with the certificates that were inserted and the blocks that were committed. -/
structure StoreRun where
  store : BlockStore
  inserted : List QuorumCert
  committed : List ExecutedBlock

namespace StoreRun

/-- A store is built from the root, which is the block committed last.  Recovered blocks and
certificates are inserted by the methods of the store. -/
def start (root : ExecutedBlock) (t : BlockTree) : StoreRun where
  store := { inner := t, pendingCommits := [] }
  inserted := []
  committed := [root]

variable {C : Crypto} {root : ExecutedBlock} {tc : Option TimeoutCertificate}

/-- A step of a run.  A method that returns an error leaves the store as it is, and a method that
panics ends the run. -/
inductive Step (order : HashSetOrder) (U : BlockUniverse C)
    (Permits : StoreRun → ExecutedBlock → Prop) : StoreRun → StoreRun → Prop
  | executeAndInsertBlock {s : StoreRun} (computer : StateComputer) (saved : Bool) (block : Block)
      (stored : ExecutedBlock) (store : BlockStore) (known : U.Known block.blockData)
      (eq_ok : s.store.executeAndInsertBlock C computer saved block = .ok (stored, store)) :
      Step order U Permits s { s with store := store }
  | insertSingleQuorumCert {s : StoreRun} (saved : Bool) (qc : QuorumCert) (store : BlockStore)
      (eq_ok : s.store.insertSingleQuorumCert C saved qc = .ok store) :
      Step order U Permits s { s with store := store, inserted := qc :: s.inserted }
  | insertTimeoutCertificate {s : StoreRun} (saved : Bool) (tc : TimeoutCertificate)
      (store : BlockStore) (eq_ok : s.store.insertTimeoutCertificate saved tc = .ok store) :
      Step order U Permits s { s with store := store }
  | commit {s : StoreRun} (persisted : Bool) (proof : LedgerInfoWithSignatures)
      (block : ExecutedBlock) (store : BlockStore)
      (eq_some : s.store.inner.getBlock proof.ledgerInfo.commitInfo.id = some block)
      (permitted : Permits s block) (eq_ok : s.store.commit C persisted proof = .ok store) :
      Step order U Permits s { s with store := store, committed := block :: s.committed }
  | runCallback {s : StoreRun} (store : BlockStore)
      (eq_ok : s.store.runCallback C order = .ok store) :
      Step order U Permits s { s with store := store }
  -- the roots move together, so that no commit may be pending, and not back
  | pruneTree {s : StoreRun} (nextRootId : HashValue) (block root : ExecutedBlock)
      (ids : List HashValue) (store : BlockStore) (idle : s.store.pendingCommits = [])
      (eq_some : s.store.inner.getBlock nextRootId = some block)
      (root_eq : s.store.inner.root = .ok root) (round_le : root.round ≤ block.round)
      (permitted : Permits s block)
      (eq_ok : s.store.pruneTree C order nextRootId = .ok (ids, store)) :
      Step order U Permits s { s with store := store, committed := block :: s.committed }

/-- A block is not committed ahead of the certificates: it is the highest certified block, or
there is a certificate for a block of a higher round. -/
def Supported (C : Crypto) (s : StoreRun) (block : ExecutedBlock) : Prop :=
  block.id C = s.store.inner.highestCertifiedBlockId ∨
    ∃ qc ∈ s.inserted, block.round < qc.certifiedBlock.round

/-- The highest certificates are there, they are the highest, and what they certify is below the
root. -/
structure HighestCertificates (rootQuorumCert rootLedgerInfo : QuorumCert) (s : StoreRun) :
    Prop where
  root_ok : ∃ root, s.store.inner.root = .ok root
  certified : ∃ block, s.store.inner.highestCertifiedBlock = .ok block ∧
    s.store.inner.getBlock s.store.inner.highestQuorumCert.certifiedBlock.id = some block ∧
    s.store.inner.highestQuorumCert ∈ rootQuorumCert :: s.inserted ∧
    ∀ qc ∈ rootQuorumCert :: s.inserted, qc.certifiedBlock.round ≤ block.round
  commit : s.store.inner.highestCommitCert ∈ rootLedgerInfo :: s.inserted ∧
    ∀ qc ∈ rootLedgerInfo :: s.inserted,
      qc.commitInfo.round ≤ s.store.inner.highestCommitCert.commitInfo.round
  subtree : s.store.inner.Descendant s.store.inner.rootId s.store.inner.highestCertifiedBlockId

structure Anchored (U : BlockUniverse C) (s : StoreRun) : Prop where
  rooted : s.store.inner.Rooted U
  pending : s.store.inner.Pending C s.store.inner.commitRootId s.store.pendingCommits
  root_committed : ∃ root ∈ s.committed, s.store.inner.getBlock s.store.inner.rootId = some root
  highest : s.store.inner.Reaches s.store.inner.rootId s.store.inner.highestCertifiedBlockId

def IsHighest (f : QuorumCert → Nat) (certs : List QuorumCert) (qc : QuorumCert) : Prop :=
  qc ∈ certs ∧ ∀ other ∈ certs, f other ≤ f qc

/-- A new certificate takes the place of the highest one when it is higher. -/
theorem IsHighest.insert {f certs first cert} (h : IsHighest f (first :: certs) cert) (qc) :
    IsHighest f (first :: qc :: certs) (if f cert < f qc then qc else cert) := by
  obtain ⟨hmem, hmax⟩ := h
  -- the list with the new certificate holds it and what the list held before
  have hcons {other} : other ∈ first :: qc :: certs ↔ other = qc ∨ other ∈ first :: certs := by
    simp only [mem_cons]
    exact or_left_comm
  split
  next hlt =>
    refine ⟨hcons.mpr (.inl rfl), fun other hother => ?_⟩
    rcases hcons.mp hother with rfl | hother
    · exact le_rfl
    · exact (hmax other hother).trans hlt.le
  next hle =>
    refine ⟨hcons.mpr (.inr hmem), fun other hother => ?_⟩
    rcases hcons.mp hother with rfl | hother
    · exact Nat.le_of_not_lt hle
    · exact hmax other hother

structure Maximal (rootQuorumCert rootLedgerInfo : QuorumCert) (s : StoreRun) : Prop where
  id_eq : s.store.inner.highestQuorumCert.certifiedBlock.id =
    s.store.inner.highestCertifiedBlockId
  round_eq : s.store.inner.highestQuorumCert.certifiedBlock.round =
    s.store.inner.roundOf s.store.inner.highestCertifiedBlockId
  certified : IsHighest (·.certifiedBlock.round) (rootQuorumCert :: s.inserted)
    s.store.inner.highestQuorumCert
  commit : IsHighest (·.commitInfo.round) (rootLedgerInfo :: s.inserted)
    s.store.inner.highestCommitCert

variable {order : HashSetOrder} {U : BlockUniverse C} {rootQuorumCert rootLedgerInfo : QuorumCert}
  {s s' : StoreRun}

namespace Anchored

variable {id : HashValue} {block : ExecutedBlock} {path : List ExecutedBlock}
  {rest : List (List ExecutedBlock)} {t : BlockTree}

section

variable (h : s.Anchored U)

include h

theorem commitRoot_reaches (hid : s.store.inner.Reaches s.store.inner.rootId id) :
    s.store.inner.Reaches s.store.inner.commitRootId id :=
  h.pending.reaches.trans hid

theorem stored (hid : s.store.inner.Reaches s.store.inner.rootId id) :
    id ∈ s.store.inner.idToBlock :=
  h.rooted.linked.stored_of_reaches h.rooted.linked.commitRoot (h.commitRoot_reaches hid)

theorem between (hm : s.Maximal rootQuorumCert rootLedgerInfo) {root}
    (hblock : s.store.inner.getBlock id = some block)
    (hroot : s.store.inner.getBlock s.store.inner.rootId = some root)
    (hround : root.round ≤ block.round) (hsupported : s.Supported C block)
    (hagree : U.Agreement (rootQuorumCert :: s.inserted) (block :: s.committed)) :
    s.store.inner.Reaches s.store.inner.rootId id ∧
      s.store.inner.Reaches id s.store.inner.highestCertifiedBlockId := by
  have hid := h.rooted.linked.id_eq hblock
  -- by agreement the block is an ancestor of the highest certified block
  have habove : U.Ancestor id s.store.inner.highestCertifiedBlockId := by
    rcases hsupported with heq | ⟨qc, hqc, hlt⟩
    · rw [← hid, heq]
    · have hle := hm.certified.2 qc (mem_cons_of_mem _ hqc)
      have hanc := hagree block mem_cons_self _ hm.certified.1 (hlt.trans_le hle)
      rwa [hid, hm.id_eq] at hanc
  have hbelow : U.Ancestor s.store.inner.rootId id := by
    refine U.forest.reach_of_rank_le (h.rooted.ancestor_of_reaches h.highest) habove ?_
    rw [h.rooted.rank_eq hblock, h.rooted.rank_eq hroot]
    omega
  have hcommit := h.rooted.reaches id (mem_of_getBlock hblock)
    ((h.rooted.ancestor_of_reaches h.pending.reaches).trans hbelow)
  exact ⟨h.rooted.reaches_of_ancestor h.pending.reaches hcommit hbelow,
    h.rooted.reaches_of_ancestor hcommit (h.commitRoot_reaches h.highest) habove⟩

theorem moveRoot (hblock : s.store.inner.getBlock id = some block)
    (hbelow : s.store.inner.Reaches s.store.inner.rootId id)
    (habove : s.store.inner.Reaches id s.store.inner.highestCertifiedBlockId)
    (hlast : path.getLast? = some block) :
    Anchored U { s with
      store := {
        inner := { s.store.inner with rootId := block.id C }
        pendingCommits := s.store.pendingCommits ++ [path] }
      committed := block :: s.committed } := by
  obtain rfl := h.rooted.linked.id_eq hblock
  exact {
    rooted := ⟨h.rooted.linked.congr rfl rfl rfl rfl, h.rooted.known, h.rooted.reaches⟩
    pending := h.pending.append hlast hbelow
    root_committed := ⟨block, mem_cons_self, hblock⟩
    highest := habove }

section

variable (hpending : s.store.pendingCommits = path :: rest) (hlast : path.getLast? = some block)

include hpending hlast

theorem next_reaches :
    s.store.inner.Reaches s.store.inner.commitRootId (block.id C) ∧
      s.store.inner.Pending C (block.id C) rest := by
  obtain ⟨_, hlast', hnext⟩ := hpending ▸ h.pending
  obtain rfl := some.inj (hlast.symm.trans hlast')
  exact hnext

theorem processed {ids} (hp : s.store.inner.PrunedBy (block.id C) ids)
    (hdone : s.store.inner.Processed (block.id C) ids t) :
    Anchored U { s with store := { inner := t, pendingCommits := rest } } ∧
      t.getBlock s.store.inner.highestCertifiedBlockId =
        s.store.inner.getBlock s.store.inner.highestCertifiedBlockId := by
  obtain ⟨hnext, hrest⟩ := h.next_reaches hpending hlast
  have hlinked := h.rooted.linked
  have hget : ∀ {id : HashValue}, s.store.inner.Reaches (block.id C) id →
      t.getBlock id = s.store.inner.getBlock id := fun hid => by
    rw [processed_getBlock hdone, if_neg]
    exact fun hmem => queue_not_reaches hlinked hnext hp (mem_of_mem_take hmem) hid
  have hreach : ∀ a b, s.store.inner.Reaches (block.id C) a → s.store.inner.Reaches a b →
      t.Reaches a b := fun a b ha hab =>
    (processed_reaches_iff hlinked hnext hp hdone ha).mpr hab
  refine ⟨⟨h.rooted.processed hnext hp hdone, ?_, ?_, ?_⟩, hget (hrest.reaches.trans h.highest)⟩
  · simp only [hdone.commitRootId]
    exact hrest.mono hdone.rootId hreach
  · obtain ⟨root, hmem, hroot⟩ := h.root_committed
    refine ⟨root, hmem, ?_⟩
    simp only [hdone.rootId]
    exact (hget hrest.reaches).trans hroot
  · simp only [hdone.rootId, hdone.highestCertifiedBlockId]
    exact hreach _ _ hrest.reaches h.highest

end

theorem insertBlock {executed stored} (hknown : U.Known executed.block.blockData)
    (hinsert : s.store.inner.insertBlock C executed = .ok (stored, t)) :
    Anchored U { s with store := { s.store with inner := t } } ∧
      t.getBlock s.store.inner.highestCertifiedBlockId =
        s.store.inner.getBlock s.store.inner.highestCertifiedBlockId := by
  rcases insertBlock_spec hinsert with ⟨-, rfl⟩ | ⟨hnew, -, parent, hparent, rfl⟩
  · exact ⟨h, rfl⟩
  have hget : ∀ {id : HashValue}, s.store.inner.Reaches s.store.inner.rootId id →
      (s.store.inner.withBlock C parent executed).getBlock id = s.store.inner.getBlock id :=
    fun hid => by
      rw [withBlock_getBlock hparent, if_neg]
      exact fun heq => hnew (heq ▸ h.stored hid)
  have hreach : ∀ {a b : HashValue}, s.store.inner.Reaches a b →
      (s.store.inner.withBlock C parent executed).Reaches a b := fun hab =>
    (withBlock_reaches_iff hnew hparent _ _).mpr (.inl hab)
  refine ⟨⟨h.rooted.withBlock hknown hnew hparent, ?_, ?_, hreach h.highest⟩, hget h.highest⟩
  · exact h.pending.mono rfl fun _ _ _ hab => hreach hab
  · obtain ⟨root, hmem, hroot⟩ := h.root_committed
    exact ⟨root, hmem, (hget .refl).trans hroot⟩

theorem insertQuorumCert {qc} (hblock : s.store.inner.getBlock qc.certifiedBlock.id = some block)
    (hinfo : block.blockInfo C = qc.certifiedBlock)
    (hinsert : s.store.inner.insertQuorumCert C qc = .ok t)
    (hagree : U.Agreement (rootQuorumCert :: qc :: s.inserted) s.committed) :
    Anchored U { s with
      store := { s.store with inner := t }
      inserted := qc :: s.inserted } := by
  obtain ⟨_, highest, hblock', hhighest, rfl⟩ := insertQuorumCert_spec hinsert
  obtain rfl := some.inj (hblock.symm.trans hblock')
  refine ⟨⟨h.rooted.linked.congr rfl rfl rfl rfl, h.rooted.known, h.rooted.reaches⟩,
    h.pending.mono rfl fun _ _ _ hab => hab, h.root_committed, ?_⟩
  split
  · next hlt =>
      obtain ⟨root, hmem, hroot⟩ := h.root_committed
      have hle := h.rooted.linked.forest.rank_le h.highest
      rw [h.rooted.rank_eq hroot, h.rooted.rank_eq hhighest] at hle
      have hround : root.round < qc.certifiedBlock.round := by
        rw [← hinfo]
        exact (Nat.le_of_succ_le_succ hle).trans_lt hlt
      have hanc := hagree root hmem qc (.tail _ mem_cons_self) hround
      rw [h.rooted.linked.id_eq hroot] at hanc
      have hcommit := h.rooted.reaches _ (mem_of_getBlock hblock)
        ((h.rooted.ancestor_of_reaches h.pending.reaches).trans hanc)
      rw [h.rooted.linked.id_eq hblock]
      exact h.rooted.reaches_of_ancestor h.pending.reaches hcommit hanc
  · exact h.highest

end

end Anchored

namespace Maximal

theorem congr (h : s.Maximal rootQuorumCert rootLedgerInfo) {store} {committed : List ExecutedBlock}
    (hid : store.inner.highestCertifiedBlockId = s.store.inner.highestCertifiedBlockId)
    (hqc : store.inner.highestQuorumCert = s.store.inner.highestQuorumCert)
    (hcommit : store.inner.highestCommitCert = s.store.inner.highestCommitCert)
    (hget : store.inner.getBlock s.store.inner.highestCertifiedBlockId =
      s.store.inner.getBlock s.store.inner.highestCertifiedBlockId) :
    Maximal rootQuorumCert rootLedgerInfo { s with store := store, committed := committed } := by
  have hround : store.inner.roundOf s.store.inner.highestCertifiedBlockId =
      s.store.inner.roundOf s.store.inner.highestCertifiedBlockId := by
    rw [roundOf, roundOf, hget]
  constructor
  all_goals simp only [hid, hqc, hcommit, hround]
  · exact h.id_eq
  · exact h.round_eq
  · exact h.certified
  · exact h.commit

theorem insertQuorumCert {rank} (hlinked : s.store.inner.Ranked C rank)
    (h : s.Maximal rootQuorumCert rootLedgerInfo) {qc block t}
    (hblock : s.store.inner.getBlock qc.certifiedBlock.id = some block)
    (hinfo : block.blockInfo C = qc.certifiedBlock)
    (hinsert : s.store.inner.insertQuorumCert C qc = .ok t) :
    Maximal rootQuorumCert rootLedgerInfo { s with
      store := { s.store with inner := t }
      inserted := qc :: s.inserted } := by
  obtain ⟨_, highest, hblock', hhighest, rfl⟩ := insertQuorumCert_spec hinsert
  obtain rfl := some.inj (hblock.symm.trans hblock')
  have hround : qc.certifiedBlock.round = block.round := by
    rw [← hinfo]
    rfl
  have hold := h.round_eq
  rw [roundOf_getBlock hhighest] at hold
  have hcertified := h.certified.insert qc
  rw [hold, hround] at hcertified
  by_cases hlt : highest.round < block.round
  · rw [if_pos hlt] at hcertified
    refine ⟨?_, ?_, ?_, h.commit.insert qc⟩
    all_goals simp only [if_pos hlt]
    · exact (hlinked.id_eq hblock).symm
    · rw [hlinked.id_eq hblock]
      exact hround.trans (roundOf_getBlock hblock).symm
    · exact hcertified
  · rw [if_neg hlt] at hcertified
    refine ⟨?_, ?_, ?_, h.commit.insert qc⟩
    all_goals simp only [if_neg hlt]
    · exact h.id_eq
    · exact h.round_eq
    · exact hcertified

end Maximal

theorem start_anchored {maxPruned} {t : BlockTree}
    (hnew : new C root rootQuorumCert rootLedgerInfo maxPruned tc = .ok t)
    (hknown : U.Known root.block.blockData) : (start root t).Anchored U := by
  have hrooted := Rooted.new hnew hknown
  simp only [new, bind_eq_ok, pure_eq_ok] at hnew
  obtain ⟨_, -, rfl⟩ := hnew
  refine ⟨hrooted, rfl, ⟨root, mem_cons_self, ?_⟩, .refl⟩
  simp [start, getBlock, getLinkableBlock, LinkableBlock.new]

theorem start_maximal {maxPruned} {t : BlockTree}
    (hnew : new C root rootQuorumCert rootLedgerInfo maxPruned tc = .ok t)
    (hid : rootQuorumCert.certifiedBlock.id = root.id C)
    (hround : rootQuorumCert.certifiedBlock.round = root.round) :
    (start root t).Maximal rootQuorumCert rootLedgerInfo := by
  simp only [new, bind_eq_ok, pure_eq_ok] at hnew
  obtain ⟨_, -, rfl⟩ := hnew
  refine ⟨hid, ?_, by simp [start, IsHighest], by simp [start, IsHighest]⟩
  simp [start, hround, roundOf, getBlock, getLinkableBlock, LinkableBlock.new]

/-- Certificates and commits are not forgotten, so that agreement held before the step. -/
theorem Step.agreement {Permits} (hstep : Step order U Permits s s')
    (hagree : U.Agreement (rootQuorumCert :: s'.inserted) s'.committed) :
    U.Agreement (rootQuorumCert :: s.inserted) s.committed := by
  intro block hblock qc hqc hround
  cases hstep with
  | executeAndInsertBlock | insertTimeoutCertificate | runCallback =>
    exact hagree block hblock qc hqc hround
  | insertSingleQuorumCert =>
    refine hagree block hblock qc ?_ hround
    rcases mem_cons.mp hqc with rfl | hqc
    · exact mem_cons_self
    · exact .tail _ (.tail _ hqc)
  | commit | pruneTree => exact hagree block (.tail _ hblock) qc hqc hround

theorem Step.preserves (hstep : Step order U (Supported C) s s')
    (hagree : U.Agreement (rootQuorumCert :: s'.inserted) s'.committed) (h : s.Anchored U)
    (hm : s.Maximal rootQuorumCert rootLedgerInfo) :
    s'.Anchored U ∧ s'.Maximal rootQuorumCert rootLedgerInfo := by
  cases hstep with
  | executeAndInsertBlock _ _ _ _ _ known eq_ok =>
    rcases executeAndInsertBlock_spec eq_ok with rfl | ⟨_, t, rfl, hinsert, rfl⟩
    · exact ⟨h, hm⟩
    obtain ⟨hanchored, hget⟩ := h.insertBlock known hinsert
    refine ⟨hanchored, ?_⟩
    rcases insertBlock_spec hinsert with ⟨-, rfl⟩ | ⟨-, -, _, -, rfl⟩
    · exact hm
    · exact hm.congr rfl rfl rfl hget
  | insertSingleQuorumCert _ _ _ eq_ok =>
    obtain ⟨block, t, hblock, hinfo, hinsert, rfl⟩ :=
      insertSingleQuorumCert_spec eq_ok
    exact ⟨h.insertQuorumCert hblock hinfo hinsert hagree,
      hm.insertQuorumCert h.rooted.linked hblock hinfo hinsert⟩
  | insertTimeoutCertificate _ _ _ eq_ok =>
    rcases insertTimeoutCertificate_spec eq_ok with rfl | rfl
    · exact ⟨h, hm⟩
    · refine ⟨⟨⟨h.rooted.linked.congr rfl rfl rfl rfl, h.rooted.known, h.rooted.reaches⟩,
        h.pending.mono rfl fun _ _ _ hab => hab, h.root_committed, h.highest⟩, ?_⟩
      exact hm.congr rfl rfl rfl rfl
  | commit _ proof block _ eq_some permitted eq_ok =>
    obtain ⟨_, root, path, t, hblock, hroot, hround, hpath, hupdate, rfl⟩ :=
      commit_spec eq_ok
    obtain rfl := some.inj (eq_some.symm.trans hblock)
    obtain ⟨-, rfl⟩ := updateRootId_spec hupdate
    obtain ⟨hbelow, habove⟩ := h.between hm hblock hroot hround.le permitted hagree
    obtain ⟨_, hpath', hlast⟩ := pathFromRoot_of_reaches h.rooted.linked h.rooted.roundOf_lt
      hroot hbelow
    obtain rfl := Except.ok.inj (hpath.symm.trans hpath')
    -- the committed block is not the root, because its round is higher
    have hne : proof.ledgerInfo.commitInfo.id ≠ s.store.inner.rootId := by
      intro heq
      rw [heq] at hblock
      obtain rfl := some.inj (hblock.symm.trans hroot)
      exact lt_irrefl _ hround
    exact ⟨h.moveRoot hblock hbelow habove ((hlast hne).trans hblock), hm.congr rfl rfl rfl rfl⟩
  | runCallback _ eq_ok =>
    rcases runCallback_spec eq_ok with
      rfl | ⟨path, rest, block, ids, hpending, hlast, hids, rfl⟩
    · exact ⟨h, hm⟩
    have hdone := updateCommitId_processed s.store.inner (block.id C) ids
    have hp := prunedBy_of_find h.rooted.linked (h.next_reaches hpending hlast).1 hids
    obtain ⟨hanchored, hget⟩ := h.processed hpending hlast hp hdone
    exact ⟨hanchored, hm.congr hdone.highestCertifiedBlockId hdone.highestQuorumCert
      hdone.highestCommitCert hget⟩
  | pruneTree _ block _ ids _ idle eq_some root_eq round_le permitted eq_ok =>
    obtain ⟨hids, rfl⟩ := pruneTree_spec eq_ok
    rw [root, okOr_eq_ok] at root_eq
    obtain ⟨hbelow, habove⟩ := h.between hm eq_some root_eq round_le permitted hagree
    obtain rfl := h.rooted.linked.id_eq eq_some
    -- both roots move as in a commit whose callback runs at once
    have hlast : [block].getLast? = some block := rfl
    have hmoved := h.moveRoot eq_some hbelow habove hlast
    have hdone := updateCommitId_processed
      { s.store.inner with rootId := block.id C } (block.id C) ids
    have hpending : s.store.pendingCommits ++ [[block]] = [block] :: s.store.pendingCommits := by
      rw [idle]
      rfl
    have hp := prunedBy_of_find h.rooted.linked (h.commitRoot_reaches hbelow) hids
    obtain ⟨hanchored, hget⟩ := hmoved.processed hpending hlast ⟨hp.nodup, hp.mem_iff, hp.ordered⟩
      hdone
    exact ⟨hanchored, hm.congr hdone.highestCertifiedBlockId hdone.highestQuorumCert
      hdone.highestCommitCert hget⟩

theorem highestCertificates (h : s.Anchored U) (hm : s.Maximal rootQuorumCert rootLedgerInfo) :
    s.HighestCertificates rootQuorumCert rootLedgerInfo where
  root_ok := by
    obtain ⟨root, -, hroot⟩ := h.root_committed
    exact ⟨root, by rw [BlockTree.root, okOr_eq_ok]; exact hroot⟩
  certified := by
    obtain ⟨block, hblock⟩ := exists_getBlock (h.stored h.highest)
    refine ⟨block, ?_, ?_, hm.certified.1, fun qc hqc => ?_⟩
    · rw [highestCertifiedBlock, okOr_eq_ok]
      exact hblock
    · rw [hm.id_eq]
      exact hblock
    · rw [← roundOf_getBlock hblock, ← hm.round_eq]
      exact hm.certified.2 qc hqc
  commit := hm.commit
  subtree := ⟨h.stored .refl, h.highest⟩

/-- In every run that commits no block ahead of the certificates, agreement keeps the highest
certificates. -/
theorem run_highestCertificates (C : Crypto) (order : HashSetOrder) (U : BlockUniverse C)
    (root : ExecutedBlock) (rootQuorumCert rootLedgerInfo : QuorumCert) (maxPruned : Nat)
    (tc : Option TimeoutCertificate) (t : BlockTree) (s : StoreRun)
    (hnew : new C root rootQuorumCert rootLedgerInfo maxPruned tc = .ok t)
    (hknown : U.Known root.block.blockData) (hid : rootQuorumCert.certifiedBlock.id = root.id C)
    (hround : rootQuorumCert.certifiedBlock.round = root.round)
    (hrun : ReflTransGen (Step order U (Supported C)) (start root t) s)
    (hagree : U.Agreement (rootQuorumCert :: s.inserted) s.committed) :
    s.HighestCertificates rootQuorumCert rootLedgerInfo := by
  have hinvariant : s.Anchored U ∧ s.Maximal rootQuorumCert rootLedgerInfo := by
    induction hrun with
    | refl => exact ⟨start_anchored hnew hknown, start_maximal hnew hid hround⟩
    | tail _ hstep ih =>
      obtain ⟨h, hm⟩ := ih (hstep.agreement hagree)
      exact hstep.preserves hagree h hm
  exact highestCertificates hinvariant.1 hinvariant.2

/-! ## Runs on a chain of three blocks -/

end StoreRun

def chainBlock (round : Nat) : ExecutedBlock := roundBlock (round - 1) round

def commitCert (round committed : Nat) : QuorumCert :=
  { roundCert round with
    signedLedgerInfo := {
      ledgerInfo := {
        commitInfo := { BlockInfo.empty with round := committed, id := committed }
        consensusDataHash := 0 }
      signatures := ∅ } }

def chainUniverse : BlockUniverse .byRound where
  Known data := ∃ round, 0 < round ∧ data = (chainBlock round).block.blockData
  hash_inj := by
    rintro _ _ ⟨round, -, rfl⟩ ⟨round', -, rfl⟩ hhash
    obtain rfl : round = round' := hhash
    rfl
  round_lt := by
    rintro _ _ ⟨round, _, rfl⟩ ⟨round', _, rfl⟩ hparent
    have hround : round' - 1 = round := hparent
    exact (by omega : round < round')

theorem chainUniverse_parent (round : Nat) (hpos : 0 < round) :
    chainUniverse.Parent (round - 1) round :=
  ⟨_, ⟨round, hpos, rfl⟩, rfl, rfl⟩

def chainTree (maxPruned : Nat) : BlockTree where
  idToBlock := (∅ : BTreeMap HashValue LinkableBlock).insert 1 (.new (chainBlock 1))
  rootId := 1
  commitRootId := 1
  highestCertifiedBlockId := 1
  highestQuorumCert := roundCert 1
  highestTimeoutCert := none
  highestCommitCert := commitCert 3 1
  idToQuorumCert := (∅ : BTreeMap HashValue QuorumCert).insert 1 (roundCert 1)
  prunedBlockIds := []
  maxPrunedBlocksInMem := maxPruned

namespace StoreRun

variable (s : StoreRun) (qc : QuorumCert)

def grown (round : Nat) : StoreRun :=
  { s with
    store := ((s.store.executeAndInsertBlock .byRound
      (fun _ _ _ => .ok (chainBlock round).stateComputeResult) true
      (chainBlock round).block).toOption.map Prod.snd).getD s.store }

def certified : StoreRun :=
  { s with
    store := (s.store.insertSingleQuorumCert .byRound true qc).toOption.getD s.store
    inserted := qc :: s.inserted }

def settled (block : ExecutedBlock) : StoreRun :=
  let ordered := (s.store.commit .byRound true qc.signedLedgerInfo).toOption.getD s.store
  { s with
    store := (ordered.runCallback .byRound .sorted).toOption.getD ordered
    committed := block :: s.committed }

theorem eq_ok_of_isOk {ε α} {x : Except ε α} (h : x.isOk = true) (default : α) :
    x = .ok (x.toOption.getD default) := by
  cases x with
  | ok => rfl
  | error => cases h

variable {Permits : StoreRun → ExecutedBlock → Prop} {s : StoreRun}

theorem step_grown {round} (hpos : 0 < round) (hok : (s.store.executeAndInsertBlock .byRound
      (fun _ _ _ => .ok (chainBlock round).stateComputeResult) true
      (chainBlock round).block).isOk = true) :
    Step .sorted chainUniverse Permits s (s.grown round) := by
  obtain ⟨⟨stored, store⟩, heq⟩ : ∃ result, s.store.executeAndInsertBlock .byRound
      (fun _ _ _ => .ok (chainBlock round).stateComputeResult) true
      (chainBlock round).block = .ok result := ⟨_, eq_ok_of_isOk hok (chainBlock 0, s.store)⟩
  rw [grown, heq]
  exact .executeAndInsertBlock _ true _ stored store ⟨round, hpos, rfl⟩ heq

theorem step_certified {qc} (hok : (s.store.insertSingleQuorumCert .byRound true qc).isOk = true) :
    Step .sorted chainUniverse Permits s (s.certified qc) :=
  .insertSingleQuorumCert true qc _ (eq_ok_of_isOk hok _)

theorem run_settled {qc} {block} (permitted : Permits s block)
    (hblock : s.store.inner.getBlock qc.commitInfo.id = some block)
    (hok : (s.store.commit .byRound true qc.signedLedgerInfo).isOk = true)
    (hcallback : ((((s.store.commit .byRound true qc.signedLedgerInfo).toOption.getD
      s.store).runCallback .byRound .sorted).isOk = true)) :
    ReflTransGen (Step .sorted chainUniverse Permits) s (s.settled qc block) :=
  .tail (.single (.commit true qc.signedLedgerInfo block _ hblock permitted
    (eq_ok_of_isOk hok s.store))) (.runCallback _ (eq_ok_of_isOk hcallback _))

def supported : StoreRun :=
  ((((start (chainBlock 1) (chainTree 0)).grown 2).grown 3).certified (commitCert 3 2)).settled
    (commitCert 3 2) (chainBlock 2)

theorem run_highestCertificates_supported :
    new .byRound (chainBlock 1) (roundCert 1) (commitCert 3 1) 0 none =
      .ok (chainTree 0) ∧
    ReflTransGen (Step .sorted chainUniverse (Supported .byRound))
      (start (chainBlock 1) (chainTree 0)) supported ∧
    chainUniverse.Agreement (roundCert 1 :: supported.inserted) supported.committed ∧
    supported.store.inner.rootId = 2 ∧ supported.store.inner.getBlock 1 = none ∧
    supported.HighestCertificates (roundCert 1) (commitCert 3 1) := by
  have hrun : ReflTransGen (Step .sorted chainUniverse (Supported .byRound))
      (start (chainBlock 1) (chainTree 0)) supported := by
    refine .trans (.tail (.tail (.single (step_grown (by decide) rfl))
      (step_grown (by decide) rfl)) (step_certified (by decide +kernel))) (run_settled ?_ ?_ ?_ ?_)
    · exact .inr ⟨commitCert 3 2, mem_cons_self, by decide⟩
    · decide +kernel
    · decide +kernel
    · decide +kernel
  have hagree : chainUniverse.Agreement (roundCert 1 :: supported.inserted)
      supported.committed := by
    have htwo : chainUniverse.Ancestor 2 3 := .single (chainUniverse_parent 3 (by decide))
    have hone : chainUniverse.Ancestor 1 2 := .single (chainUniverse_parent 2 (by decide))
    intro _ hblock _ hqc hround
    rcases mem_pair.mp hblock with rfl | rfl
    all_goals rcases mem_pair.mp hqc with rfl | rfl
    · exact absurd hround (by decide)
    · exact htwo
    · exact absurd hround (by decide)
    · exact hone.trans htwo
  exact ⟨rfl, hrun, hagree, by decide +kernel, by decide +kernel,
    run_highestCertificates .byRound .sorted chainUniverse _ _ _ 0 none _ supported rfl
      ⟨1, Nat.one_pos, rfl⟩ rfl rfl hrun hagree⟩

def unsupported : StoreRun :=
  ((start (chainBlock 1) (chainTree 0)).grown 2).settled (commitCert 3 2) (chainBlock 2)

/-- Agreement alone does not keep the highest certified block. -/
theorem run_highestCertificates_fails :
    new .byRound (chainBlock 1) (roundCert 1) (commitCert 3 1) 0 none =
      .ok (chainTree 0) ∧
    chainUniverse.Known (chainBlock 1).block.blockData ∧
    (roundCert 1).certifiedBlock.id = (chainBlock 1).id .byRound ∧
    (roundCert 1).certifiedBlock.round = (chainBlock 1).round ∧
    ReflTransGen (Step .sorted chainUniverse fun _ _ => True)
      (start (chainBlock 1) (chainTree 0)) unsupported ∧
    chainUniverse.Agreement (roundCert 1 :: unsupported.inserted) unsupported.committed ∧
    unsupported.store.inner.highestCertifiedBlock =
      .error (.panic "Highest cerfified block must exist") ∧
    ¬unsupported.HighestCertificates (roundCert 1) (commitCert 3 1) := by
  have hpanic : unsupported.store.inner.highestCertifiedBlock =
      .error (.panic "Highest cerfified block must exist") := by decide +kernel
  refine ⟨rfl, ⟨1, Nat.one_pos, rfl⟩, rfl, rfl, ?_, ?_, hpanic, ?_⟩
  · refine .trans (.single (step_grown (by decide) rfl)) (run_settled trivial ?_ ?_ ?_)
    all_goals decide +kernel
  · intro _ hblock _ hqc hround
    obtain rfl := mem_singleton.mp hqc
    rcases mem_pair.mp hblock with rfl | rfl
    all_goals exact absurd hround (by decide)
  · intro h
    obtain ⟨_, hblock, -⟩ := h.certified
    cases hblock

end StoreRun

end Loki.Diem
