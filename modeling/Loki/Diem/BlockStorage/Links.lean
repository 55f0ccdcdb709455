import Loki.Diem.BlockStorage.BlockTree

/-!
# The links of the block tree

What holds of every tree that the operations can build, however they are mixed: the children of a
stored block are stored, and in the queue of pruned blocks no block comes before its parent.  The
first follows from the second, because the queue gives up its oldest blocks first.
-/

namespace Loki.Diem

open Loki.Foundation Relation List Std.ExtTreeMap Function LinkableBlock Forest

namespace BlockTree

variable {C : Crypto} {order : HashSetOrder} {t : BlockTree} {block : LinkableBlock}

def Child (t : BlockTree) (parent child : HashValue) : Prop :=
  ∃ block, t.idToBlock[parent]? = some block ∧ child ∈ block.children

abbrev Reaches (t : BlockTree) : HashValue → HashValue → Prop := ReflTransGen t.Child

def roundOf (t : BlockTree) (id : HashValue) : Nat :=
  ((t.getBlock id).map ExecutedBlock.round).getD 0

/-- Some `rank` grows from parents to children. -/
structure Ranked (C : Crypto) (rank : HashValue → Nat) (t : BlockTree) : Prop where
  id_eq : ∀ {id block}, t.getBlock id = some block → block.id C = id
  child : ∀ {id childId}, t.Child id childId →
    ∃ child, t.getBlock childId = some child ∧ child.parentId = id ∧ rank id < rank childId
  commitRoot : t.commitRootId ∈ t.idToBlock
  pruned_stored : ∀ id ∈ t.prunedBlockIds, id ∈ t.idToBlock
  pruned_nodup : t.prunedBlockIds.Nodup
  pruned_unreachable : ∀ id ∈ t.prunedBlockIds, ¬t.Reaches t.commitRootId id
  pruned_ordered : t.prunedBlockIds.Pairwise fun id id' => ¬t.Child id' id
  parent_pruned : ∀ {id childId}, t.Child id childId →
    childId ∈ t.prunedBlockIds ∨ childId = t.commitRootId → id ∈ t.prunedBlockIds
  pruned_le : t.prunedBlockIds.length ≤ t.maxPrunedBlocksInMem

variable {rank : HashValue → Nat} {id p c : HashValue}

theorem mem_iff_exists : id ∈ t.idToBlock ↔ ∃ block, t.idToBlock[id]? = some block := by
  rw [mem_iff_isSome_getElem?, Option.isSome_iff_exists]

theorem getBlock_eq_some_iff {block} :
    t.getBlock id = some block ↔
      ∃ stored, t.idToBlock[id]? = some stored ∧ stored.executedBlock = block := by
  simp [getBlock, getLinkableBlock]

theorem exists_getBlock (h : id ∈ t.idToBlock) : ∃ block, t.getBlock id = some block := by
  obtain ⟨stored, hstored⟩ := mem_iff_exists.mp h
  exact ⟨_, getBlock_eq_some_iff.mpr ⟨stored, hstored, rfl⟩⟩

theorem mem_of_getBlock {block} (h : t.getBlock id = some block) : id ∈ t.idToBlock := by
  obtain ⟨stored, hstored, -⟩ := getBlock_eq_some_iff.mp h
  exact mem_iff_exists.mpr ⟨stored, hstored⟩

theorem roundOf_getBlock {block} (h : t.getBlock id = some block) : t.roundOf id = block.round := by
  rw [roundOf, h, Option.map_some, Option.getD_some]

theorem Child.stored (h : t.Child p c) : p ∈ t.idToBlock :=
  mem_iff_exists.mpr (h.imp fun _ => And.left)

namespace Ranked

variable (h : t.Ranked C rank)

include h

theorem id_of_stored {stored} (hstored : t.idToBlock[id]? = some stored) : stored.id C = id :=
  h.id_eq (getBlock_eq_some_iff.mpr ⟨stored, hstored, rfl⟩)

theorem forest : Forest t.Child rank where
  unique := by
    intro p q c hc hc'
    obtain ⟨_, hchild, rfl, -⟩ := h.child hc
    obtain ⟨_, hchild', rfl, -⟩ := h.child hc'
    rw [Option.some.inj (hchild.symm.trans hchild')]
  rank_lt := by
    intro p c hc
    obtain ⟨_, -, -, hlt⟩ := h.child hc
    exact hlt

theorem stored_of_child (hc : t.Child p c) : c ∈ t.idToBlock := by
  obtain ⟨_, hchild, -⟩ := h.child hc
  exact mem_of_getBlock hchild

theorem stored_of_reaches {a b} (ha : a ∈ t.idToBlock) (hab : t.Reaches a b) :
    b ∈ t.idToBlock := by
  rcases hab.cases_tail with rfl | ⟨c, -, hc⟩
  · exact ha
  · exact h.stored_of_child hc

end Ranked

/-! ## New trees and new blocks -/

section

variable {root : ExecutedBlock} {rootQuorumCert rootLedgerInfo : QuorumCert} {maxPruned : Nat}
  {tc : Option TimeoutCertificate}
  (h : new C root rootQuorumCert rootLedgerInfo maxPruned tc = .ok t)

include h

theorem new_getElem? {stored} (hstored : t.idToBlock[id]? = some stored) :
    root.id C = id ∧ stored = .new root := by
  simp only [new, bind_eq_ok, pure_eq_ok] at h
  obtain ⟨_, -, rfl⟩ := h
  rw [Std.ExtTreeMap.getElem?_insert] at hstored
  split at hstored
  · next heq => exact ⟨Std.LawfulEqCmp.eq_of_compare heq, (Option.some.inj hstored).symm⟩
  · simp at hstored

theorem new_ranked : t.Ranked C rank := by
  have hid : ∀ {id block}, t.getBlock id = some block → block.id C = id := by
    intro _ _ hblock
    obtain ⟨_, hstored, rfl⟩ := getBlock_eq_some_iff.mp hblock
    obtain ⟨rfl, rfl⟩ := new_getElem? h hstored
    rfl
  have hnone : ∀ {id childId}, ¬t.Child id childId := by
    rintro _ _ ⟨_, hstored, hc⟩
    rw [(new_getElem? h hstored).2] at hc
    exact Finset.notMem_empty _ hc
  simp only [new, bind_eq_ok, pure_eq_ok] at h
  obtain ⟨_, -, rfl⟩ := h
  exact ⟨hid, fun hc => absurd hc hnone, by simp, by simp, .nil, by simp, .nil,
    fun hc => absurd hc hnone, Nat.zero_le _⟩

end

def withBlock (C : Crypto) (t : BlockTree) (parent : LinkableBlock) (block : ExecutedBlock) :
    BlockTree :=
  { t with
    idToBlock := (t.idToBlock.insert block.parentId
      { parent with children := insert (block.id C) parent.children }).insert (block.id C)
        (.new block) }

theorem insertBlock_spec {block stored t'} (h : t.insertBlock C block = .ok (stored, t')) :
    t.getBlock (block.id C) = some stored ∧ t' = t ∨
      block.id C ∉ t.idToBlock ∧ stored = block ∧
        ∃ parent, t.idToBlock[block.parentId]? = some parent ∧ t' = t.withBlock C parent block := by
  unfold insertBlock at h
  split at h
  · next existing hexisting =>
      simp only [bind_eq_ok, ensure_eq_ok, pure_eq_ok, Prod.mk.injEq] at h
      obtain ⟨_, -, rfl, rfl⟩ := h
      exact .inl ⟨hexisting, rfl⟩
  · next hnone =>
      simp only [addChild, bind_eq_ok, ensure_eq_ok, okOr_eq_ok, pure_eq_ok, Prod.mk.injEq] at h
      obtain ⟨parent, hparent, _, ⟨_, -, rfl⟩, _, -, rfl, rfl⟩ := h
      refine .inr ⟨?_, rfl, parent, hparent, rfl⟩
      simpa [getBlock, getLinkableBlock] using hnone

section

variable {block : ExecutedBlock} {parent : LinkableBlock}

theorem withBlock_getElem? (id : HashValue) : (t.withBlock C parent block).idToBlock[id]? =
    if id = block.id C then some (.new block)
    else if id = block.parentId then
      some { parent with children := insert (block.id C) parent.children }
    else t.idToBlock[id]? := by
  simp only [withBlock, Std.ExtTreeMap.getElem?_insert, Std.LawfulEqCmp.compare_eq_iff_eq]
  simp [eq_comm]

section

variable (hparent : t.idToBlock[block.parentId]? = some parent) (id : HashValue)

include hparent

theorem withBlock_mem_iff :
    id ∈ (t.withBlock C parent block).idToBlock ↔ id ∈ t.idToBlock ∨ id = block.id C := by
  have hmem := mem_iff_exists.mpr ⟨parent, hparent⟩
  simp only [withBlock, mem_insert, Std.LawfulEqCmp.compare_eq_iff_eq]
  constructor
  · rintro (rfl | rfl | hid)
    · exact .inr rfl
    · exact .inl hmem
    · exact .inl hid
  · rintro (hid | rfl)
    · exact .inr (.inr hid)
    · exact .inl rfl

theorem withBlock_getBlock :
    (t.withBlock C parent block).getBlock id =
      if id = block.id C then some block else t.getBlock id := by
  simp only [getBlock, getLinkableBlock, withBlock_getElem?]
  by_cases hid : id = block.id C
  · simp [hid, LinkableBlock.new]
  · by_cases hp : id = block.parentId
    · rw [if_neg hid, if_neg hid, if_pos hp, hp, hparent]
      rfl
    · rw [if_neg hid, if_neg hid, if_neg hp]

end

variable (hnew : block.id C ∉ t.idToBlock) (hparent : t.idToBlock[block.parentId]? = some parent)

include hnew hparent

theorem id_ne_parentId : block.id C ≠ block.parentId := by
  intro heq
  exact hnew (heq ▸ mem_iff_exists.mpr ⟨parent, hparent⟩)

theorem withBlock_child_iff (p c : HashValue) : (t.withBlock C parent block).Child p c ↔
    t.Child p c ∨ p = block.parentId ∧ c = block.id C := by
  have hne := id_ne_parentId hnew hparent
  unfold Child
  rw [withBlock_getElem?]
  by_cases hid : p = block.id C
  · subst hid
    have hnone : t.idToBlock[block.id C]? = none := getElem?_eq_none hnew
    simp [hnone, hne, LinkableBlock.new]
  · by_cases hp : p = block.parentId
    · subst hp
      simp only [hid, if_false, if_true, hparent, Option.some.injEq, exists_eq_left',
        Finset.mem_insert, true_and]
      exact or_comm
    · simp [hid, hp]

theorem withBlock_reaches_iff (a x : HashValue) :
    (t.withBlock C parent block).Reaches a x ↔
      t.Reaches a x ∨ x = block.id C ∧ t.Reaches a block.parentId := by
  refine reach_addLeaf_iff (withBlock_child_iff hnew hparent) ?_ (id_ne_parentId hnew hparent)
  exact fun c hc => hnew hc.stored

/-- The new block may have any rank above that of its parent. -/
theorem Ranked.withBlock (h : t.Ranked C rank) {r} (hlt : rank block.parentId < r) :
    (t.withBlock C parent block).Ranked C (update rank (block.id C) r) where
  id_eq := by
    intro id stored hstored
    rw [withBlock_getBlock hparent] at hstored
    split at hstored
    · next hid =>
        cases hstored
        exact hid.symm
    · exact h.id_eq hstored
  child := by
    have hold : ∀ {id}, id ∈ t.idToBlock → id ≠ block.id C := fun hid heq => hnew (heq ▸ hid)
    intro _ childId hc
    rw [withBlock_getBlock hparent]
    rcases (withBlock_child_iff hnew hparent _ _).mp hc with hc | ⟨rfl, rfl⟩
    · obtain ⟨child, hchild, hrest⟩ := h.child hc
      have hne : childId ≠ block.id C := hold (mem_of_getBlock hchild)
      rw [if_neg hne, update_of_ne (hold hc.stored), update_of_ne hne]
      exact ⟨child, hchild, hrest⟩
    · refine ⟨block, if_pos rfl, rfl, ?_⟩
      rwa [update_self, update_of_ne (hold (mem_iff_exists.mpr ⟨parent, hparent⟩))]
  commitRoot := (withBlock_mem_iff hparent _).mpr (.inl h.commitRoot)
  pruned_stored := fun id hid => (withBlock_mem_iff hparent _).mpr (.inl (h.pruned_stored id hid))
  pruned_nodup := h.pruned_nodup
  pruned_unreachable := by
    intro id hid hreach
    rcases (withBlock_reaches_iff hnew hparent _ _).mp hreach with hreach | ⟨rfl, -⟩
    · exact h.pruned_unreachable id hid hreach
    · exact hnew (h.pruned_stored _ hid)
  pruned_ordered := by
    refine h.pruned_ordered.imp_of_mem ?_
    intro id _ hid _ hnot hchild
    rcases (withBlock_child_iff hnew hparent _ _).mp hchild with hchild | ⟨-, rfl⟩
    · exact hnot hchild
    · exact hnew (h.pruned_stored _ hid)
  parent_pruned := by
    intro _ _ hchild hpruned
    rcases (withBlock_child_iff hnew hparent _ _).mp hchild with hchild | ⟨-, rfl⟩
    · exact h.parent_pruned hchild hpruned
    · rcases hpruned with hmem | heq
      · exact absurd (h.pruned_stored _ hmem) hnew
      · exact absurd (heq ▸ h.commitRoot) hnew
  pruned_le := h.pruned_le

end

/-! ## Pruning -/

/-- What `find_blocks_to_prune` finds: the blocks below the commit root that are not below the
next root, no block before its parent. -/
structure PrunedBy (t : BlockTree) (nextRootId : HashValue) (ids : List HashValue) : Prop where
  nodup : ids.Nodup
  mem_iff : ∀ id, id ∈ ids ↔ t.Reaches t.commitRootId id ∧ ¬t.Reaches nextRootId id
  ordered : ids.Pairwise fun id id' => ¬t.Child id' id

theorem childrenToPrune_ok (h : t.Ranked C rank) (nextRootId : HashValue) (ids : List HashValue)
    (hids : ∀ id ∈ ids, id ∈ t.idToBlock) :
    ∃ blocks, t.childrenToPrune nextRootId ids = .ok blocks ∧
      blocks.map (LinkableBlock.id C) = ids.filter (· ≠ nextRootId) ∧
      ∀ block ∈ blocks, t.idToBlock[block.id C]? = some block := by
  induction ids with
  | nil => exact ⟨[], rfl, rfl, nofun⟩
  | cons id _ ih =>
    obtain ⟨blocks, hblocks, hmap, hvalid⟩ := ih fun id' hid' => hids id' (.tail _ hid')
    by_cases hid : nextRootId = id
    · subst hid
      exact ⟨blocks, by simp [childrenToPrune, hblocks], by simp [hmap], hvalid⟩
    · obtain ⟨child, hchild⟩ := mem_iff_exists.mp (hids id mem_cons_self)
      refine ⟨child :: blocks, ?_, ?_, ?_⟩
      · simp only [childrenToPrune, if_neg hid, bind_eq_ok, okOr_eq_ok, pure_eq_ok]
        exact ⟨child, hchild, blocks, hblocks, rfl⟩
      · simp [h.id_of_stored hchild, hmap, Ne.symm hid]
      · intro block hmem
        rcases mem_cons.mp hmem with rfl | hmem
        · rw [h.id_of_stored hchild]
          exact hchild
        · exact hvalid block hmem

theorem childrenToPrune_expands (h : t.Ranked C rank) (order : HashSetOrder)
    (nextRootId : HashValue) (hblock : t.idToBlock[block.id C]? = some block) :
    ∃ next, Expands (fun block => t.childrenToPrune nextRootId (order.toList block.children))
      (LinkableBlock.id C) (Avoiding t.Child nextRootId)
      (fun block => t.idToBlock[block.id C]? = some block) block next := by
  obtain ⟨next, hnext, hmap, hvalid⟩ := childrenToPrune_ok h nextRootId
    (order.toList block.children) fun _ hid =>
      h.stored_of_child ⟨block, hblock, order.mem_iff.mp hid⟩
  refine ⟨next, hnext, hvalid, ?_, fun c => ?_⟩
  · rw [hmap]
    exact (order.nodup _).filter _
  · rw [hmap, mem_filter, order.mem_iff, decide_eq_true_eq]
    refine and_congr_left fun _ => ⟨fun hc => ⟨block, hblock, hc⟩, ?_⟩
    rintro ⟨_, hblock', hc⟩
    rw [Option.some.inj (hblock.symm.trans hblock')]
    exact hc

theorem findBlocksToPrune_spec (h : t.Ranked C rank) (order) {nextRootId}
    (hnext : t.Reaches t.commitRootId nextRootId) :
    ∃ ids, t.findBlocksToPrune C order nextRootId = .ok ids ∧ t.PrunedBy nextRootId ids := by
  by_cases heq : nextRootId = t.commitRootId
  · refine ⟨[], by simp [findBlocksToPrune, heq], .nil, fun id => ?_, .nil⟩
    simp [heq]
  obtain ⟨root, hroot⟩ := mem_iff_exists.mp h.commitRoot
  have hid := h.id_of_stored hroot
  have hfinite : ∀ y, ReflTransGen (Avoiding t.Child nextRootId) (root.id C) y →
      y ∈ t.idToBlock.keys.toFinset := by
    intro y hy
    rw [mem_toFinset, Std.ExtTreeMap.mem_keys]
    exact h.stored_of_reaches (hid ▸ h.commitRoot) (reach_of_avoiding hy)
  obtain ⟨visited, hvisited, hnodup, hmem, hordered⟩ :=
    traverse_forest (.panic "the loop does not end") h.forest.avoiding (hid.symm ▸ hroot)
    (fun y hy _ => childrenToPrune_expands h order nextRootId hy) _ hfinite t.idToBlock.size
    (by rw [toFinset_card_of_nodup nodup_keys, length_keys])
  have hpruned : ∀ id, id ∈ visited.map (LinkableBlock.id C) ↔
      t.Reaches t.commitRootId id ∧ ¬t.Reaches nextRootId id := by
    intro id
    rw [hmem, hid]
    constructor
    · intro havoid
      refine ⟨reach_of_avoiding havoid, fun hreach => ?_⟩
      exact h.forest.not_avoiding_of_reach hnext (Ne.symm heq) hreach havoid
    · rintro ⟨hreach, hnot⟩
      exact (avoiding_or_reach hreach).resolve_right hnot
  refine ⟨visited.map (LinkableBlock.id C), ?_, hnodup, hpruned, ?_⟩
  · simp only [findBlocksToPrune, if_neg heq, bind_eq_ok, linkableRoot, okOr_eq_ok, pure_eq_ok]
    exact ⟨root, hroot, visited, hvisited, rfl⟩
  · refine hordered.imp_of_mem ?_
    intro _ _ hid _ hnot hchild
    refine hnot ⟨hchild, ?_⟩
    rintro rfl
    exact ((hpruned _).mp hid).2 .refl

section

variable (t : BlockTree) (ids : List HashValue)

def queue : List HashValue := t.prunedBlockIds ++ ids

def evicted : List HashValue :=
  (t.queue ids).take ((t.queue ids).length - t.maxPrunedBlocksInMem)

end

section

variable (ids : List HashValue) (t : BlockTree)

theorem foldl_removeBlock_idToBlock (id : HashValue) :
    (ids.foldl removeBlock t).idToBlock[id]? = if id ∈ ids then none else t.idToBlock[id]? := by
  induction ids generalizing t with
  | nil => simp
  | cons _ ids ih =>
    rw [foldl_cons, ih]
    simp only [removeBlock, getElem?_erase, Std.LawfulEqCmp.compare_eq_iff_eq, mem_cons]
    by_cases hid : id ∈ ids
    · simp [hid]
    · simp [hid, eq_comm]

theorem foldl_removeBlock_eq :
    ∃ blocks certs, ids.foldl removeBlock t =
      { t with idToBlock := blocks, idToQuorumCert := certs } := by
  induction ids generalizing t with
  | nil => exact ⟨_, _, rfl⟩
  | cons head _ ih =>
    obtain ⟨blocks, certs, heq⟩ := ih (t.removeBlock head)
    exact ⟨blocks, certs, heq⟩

end

section

variable (t : BlockTree) (nextRootId : HashValue) (ids : List HashValue)

/-- Processing pruned blocks moves the commit root, removes the oldest pruned blocks and leaves
the roots and certificates alone. -/
structure Processed
    (t' : BlockTree) : Prop where
  idToBlock : ∀ id : HashValue, t'.idToBlock[id]? =
    if id ∈ t.evicted ids then none else t.idToBlock[id]?
  commitRootId : t'.commitRootId = nextRootId
  prunedBlockIds : t'.prunedBlockIds =
    (t.queue ids).drop ((t.queue ids).length - t.maxPrunedBlocksInMem)
  maxPrunedBlocksInMem : t'.maxPrunedBlocksInMem = t.maxPrunedBlocksInMem
  rootId : t'.rootId = t.rootId
  highestCertifiedBlockId : t'.highestCertifiedBlockId = t.highestCertifiedBlockId
  highestQuorumCert : t'.highestQuorumCert = t.highestQuorumCert
  highestCommitCert : t'.highestCommitCert = t.highestCommitCert

theorem updateCommitId_processed :
    t.Processed nextRootId ids (t.updateCommitIdAndProcessPrunedBlocks nextRootId ids) := by
  obtain ⟨_, _, heq⟩ := foldl_removeBlock_eq (t.evicted ids) { t with
    commitRootId := nextRootId
    prunedBlockIds := (t.queue ids).drop ((t.queue ids).length - t.maxPrunedBlocksInMem) }
  have hupdate : t.updateCommitIdAndProcessPrunedBlocks nextRootId ids = _ := heq
  refine ⟨fun id => ?_, ?_, ?_, ?_, ?_, ?_, ?_, ?_⟩
  · exact foldl_removeBlock_idToBlock _ _ id
  all_goals rw [hupdate]

end

section

variable {nextRootId : HashValue} {ids : List HashValue} {t' : BlockTree} (h : t.Ranked C rank)
  (hnext : t.Reaches t.commitRootId nextRootId) (hp : t.PrunedBy nextRootId ids)
  {id p c : HashValue}

include h hnext hp

theorem queue_not_reaches (hid : id ∈ t.queue ids) : ¬t.Reaches nextRootId id := by
  rcases mem_append.mp hid with hid | hid
  · exact fun hreach => h.pruned_unreachable id hid (hnext.trans hreach)
  · exact ((hp.mem_iff id).mp hid).2

omit hnext in
theorem queue_nodup : (t.queue ids).Nodup := by
  refine nodup_append.mpr ⟨h.pruned_nodup, hp.nodup, ?_⟩
  rintro id hid _ hid' rfl
  exact h.pruned_unreachable id hid ((hp.mem_iff id).mp hid').1

omit hnext in
theorem queue_ordered : (t.queue ids).Pairwise fun id id' => ¬t.Child id' id := by
  refine pairwise_append.mpr ⟨h.pruned_ordered, hp.ordered, ?_⟩
  intro id hid id' hid' hchild
  exact h.pruned_unreachable id hid (((hp.mem_iff id').mp hid').1.tail hchild)

theorem queue_parent (hchild : t.Child p c) (hc : c ∈ t.queue ids ∨ c = nextRootId) :
    p ∈ t.queue ids := by
  -- the parent of a block below the commit root is below it as well
  have hbelow : t.Reaches t.commitRootId c → ¬t.Reaches nextRootId p → p ∈ t.queue ids := by
    intro hreach hnot
    rcases hreach.cases_tail with heq | ⟨q, hq, hedge⟩
    · exact mem_append_left _ (h.parent_pruned hchild (.inr heq))
    · rw [h.forest.unique hedge hchild] at hq
      exact mem_append_right _ ((hp.mem_iff p).mpr ⟨hq, hnot⟩)
  rcases hc with hc | rfl
  · rcases mem_append.mp hc with hc | hc
    · exact mem_append_left _ (h.parent_pruned hchild (.inl hc))
    · obtain ⟨hreach, hnot⟩ := (hp.mem_iff c).mp hc
      exact hbelow hreach fun hreach' => hnot (hreach'.tail hchild)
  · refine hbelow hnext fun hreach => ?_
    have hle := h.forest.rank_le hreach
    have hlt := h.forest.rank_lt hchild
    omega

theorem evicted_parent (hchild : t.Child p c) (hc : c ∈ t.evicted ids) : p ∈ t.evicted ids := by
  have hp' := queue_parent h hnext hp hchild (.inl (mem_of_mem_take hc))
  have hordered := queue_ordered h hp
  rw [← take_append_drop ((t.queue ids).length - t.maxPrunedBlocksInMem) (t.queue ids)]
    at hp' hordered
  rcases mem_append.mp hp' with hmem | hmem
  · exact hmem
  · exact absurd hchild ((pairwise_append.mp hordered).2.2 c hc p hmem)

section

variable (hdone : t.Processed nextRootId ids t')

include hdone

omit h hnext hp in
theorem processed_child_iff : t'.Child p c ↔ p ∉ t.evicted ids ∧ t.Child p c := by
  unfold Child
  rw [hdone.idToBlock]
  by_cases hmem : p ∈ t.evicted ids
  · simp [hmem]
  · simp [hmem]

theorem processed_reaches_iff {a b} (ha : t.Reaches nextRootId a) :
    t'.Reaches a b ↔ t.Reaches a b := by
  constructor
  · exact ReflTransGen.mono (fun _ _ hchild => ((processed_child_iff hdone).mp hchild).2) _ _
  · intro hab
    induction hab with
    | refl => exact .refl
    | @tail _ _ hy hchild ih =>
      refine ih.tail ((processed_child_iff hdone).mpr ⟨fun hmem => ?_, hchild⟩)
      exact queue_not_reaches h hnext hp (mem_of_mem_take hmem) (ha.trans hy)

theorem processed_commitRoot_reaches_iff :
    t'.Reaches t'.commitRootId id ↔ t.Reaches nextRootId id := by
  rw [hdone.commitRootId]
  exact processed_reaches_iff h hnext hp hdone .refl

omit h hnext hp in
theorem processed_getBlock (id : HashValue) :
    t'.getBlock id = if id ∈ t.evicted ids then none else t.getBlock id := by
  simp only [getBlock, getLinkableBlock, hdone.idToBlock]
  split <;> rfl

omit h hnext hp in
theorem processed_mem_iff : id ∈ t'.idToBlock ↔ id ∉ t.evicted ids ∧ id ∈ t.idToBlock := by
  simp [mem_iff_exists, hdone.idToBlock]

omit hnext in
theorem processed_pruned_iff : id ∈ t'.prunedBlockIds ↔ id ∈ t.queue ids ∧ id ∉ t.evicted ids := by
  have hsplit := take_append_drop ((t.queue ids).length - t.maxPrunedBlocksInMem) (t.queue ids)
  have hnodup := queue_nodup h hp
  rw [← hsplit] at hnodup
  rw [hdone.prunedBlockIds]
  constructor
  · intro hid
    exact ⟨mem_of_mem_drop hid, fun hev => (nodup_append.mp hnodup).2.2 id hev id hid rfl⟩
  · rintro ⟨hid, hev⟩
    rw [← hsplit] at hid
    exact (mem_append.mp hid).resolve_left hev

theorem processed_mem_of_reaches (hid : t.Reaches nextRootId id) : id ∈ t'.idToBlock := by
  refine (processed_mem_iff hdone).mpr ⟨fun hmem => ?_, ?_⟩
  · exact queue_not_reaches h hnext hp (mem_of_mem_take hmem) hid
  · exact h.stored_of_reaches h.commitRoot (hnext.trans hid)

theorem Ranked.processed : t'.Ranked C rank where
  id_eq := by
    intro id _ hblock
    rw [processed_getBlock hdone, Option.ite_none_left_eq_some] at hblock
    exact h.id_eq hblock.2
  child := by
    intro _ _ hc
    obtain ⟨hid, hc⟩ := (processed_child_iff hdone).mp hc
    rw [processed_getBlock hdone, if_neg fun hev => hid (evicted_parent h hnext hp hc hev)]
    exact h.child hc
  commitRoot := by
    rw [hdone.commitRootId]
    exact processed_mem_of_reaches h hnext hp hdone .refl
  pruned_stored := by
    intro id hid
    obtain ⟨hqueue, hev⟩ := (processed_pruned_iff h hp hdone).mp hid
    refine (processed_mem_iff hdone).mpr ⟨hev, ?_⟩
    rcases mem_append.mp hqueue with hold | hnew
    · exact h.pruned_stored id hold
    · exact h.stored_of_reaches h.commitRoot ((hp.mem_iff id).mp hnew).1
  pruned_nodup := by
    rw [hdone.prunedBlockIds]
    exact (queue_nodup h hp).sublist (drop_sublist _ _)
  pruned_unreachable := by
    intro id hid hreach
    have hqueue := ((processed_pruned_iff h hp hdone).mp hid).1
    exact queue_not_reaches h hnext hp hqueue
      ((processed_commitRoot_reaches_iff h hnext hp hdone).mp hreach)
  pruned_ordered := by
    rw [hdone.prunedBlockIds]
    refine ((queue_ordered h hp).sublist (drop_sublist _ _)).imp ?_
    exact fun hnot hchild => hnot ((processed_child_iff hdone).mp hchild).2
  parent_pruned := by
    intro _ _ hchild hc
    obtain ⟨hev, hchild⟩ := (processed_child_iff hdone).mp hchild
    refine (processed_pruned_iff h hp hdone).mpr ⟨?_, hev⟩
    refine queue_parent h hnext hp hchild (hc.imp ?_ fun heq => heq.trans hdone.commitRootId)
    exact fun hmem => ((processed_pruned_iff h hp hdone).mp hmem).1
  pruned_le := by
    rw [hdone.prunedBlockIds, hdone.maxPrunedBlocksInMem, length_drop]
    omega

end

end

end BlockTree

end Loki.Diem
