import Loki.Diem.BlockStorage.Paths

/-!
# Ancestors and the block tree

A tree forgets blocks, so that ancestors are those of all blocks that were ever proposed.  Between
two stored blocks below its commit root the tree forgets no link, however it was built.
-/

namespace Loki.Diem

open Loki.Foundation Relation

/-- The blocks that can be proposed: their hashes do not collide, and rounds grow along parent
links. -/
structure BlockUniverse (C : Crypto) where
  Known : BlockData → Prop
  hash_inj : ∀ {data data' : BlockData}, Known data → Known data' →
    data.hash C = data'.hash C → data = data'
  round_lt : ∀ {parent data : BlockData}, Known parent → Known data →
    data.parentId = parent.hash C → parent.round < data.round

namespace BlockUniverse

variable {C : Crypto} (U : BlockUniverse C)

def Parent (parentId id : HashValue) : Prop :=
  ∃ data, U.Known data ∧ data.hash C = id ∧ data.parentId = parentId

abbrev Ancestor : HashValue → HashValue → Prop := ReflTransGen U.Parent

def Agreement (certs : List QuorumCert) (committed : List ExecutedBlock) : Prop :=
  ∀ block ∈ committed, ∀ qc ∈ certs, block.round < qc.certifiedBlock.round →
    U.Ancestor (block.id C) qc.certifiedBlock.id

open Classical in
noncomputable def rank (id : HashValue) : Nat :=
  if h : ∃ data, U.Known data ∧ data.hash C = id then h.choose.round + 1 else 0

theorem rank_eq {data} (h : U.Known data) : U.rank (data.hash C) = data.round + 1 := by
  have hex : ∃ data', U.Known data' ∧ data'.hash C = data.hash C := ⟨data, h, rfl⟩
  obtain ⟨hknown, hhash⟩ := hex.choose_spec
  rw [rank, dif_pos hex, U.hash_inj hknown h hhash]

theorem forest : Forest U.Parent U.rank where
  unique := by
    rintro p q c ⟨data, hdata, rfl, rfl⟩ ⟨_, hdata', hhash, rfl⟩
    rw [U.hash_inj hdata' hdata hhash]
  rank_lt := by
    rintro p c ⟨data, hdata, rfl, rfl⟩
    rw [U.rank_eq hdata]
    by_cases hparent : ∃ parent, U.Known parent ∧ parent.hash C = data.parentId
    · obtain ⟨_, hknown, hhash⟩ := hparent
      rw [← hhash, U.rank_eq hknown]
      exact Nat.succ_lt_succ (U.round_lt hknown hdata hhash.symm)
    · rw [rank, dif_neg hparent]
      exact Nat.succ_pos _

end BlockUniverse

namespace BlockTree

variable {C : Crypto} {U : BlockUniverse C} {t t' : BlockTree} {id nextRootId : HashValue}
  {block : ExecutedBlock} {ids : List HashValue}

/-- Below the commit root the links between stored blocks are those of the universe. -/
structure Rooted (U : BlockUniverse C) (t : BlockTree) : Prop where
  linked : t.Ranked C U.rank
  known : ∀ {id : HashValue} {block : ExecutedBlock}, t.getBlock id = some block →
    U.Known block.block.blockData
  reaches : ∀ id ∈ t.idToBlock, U.Ancestor t.commitRootId id → t.Reaches t.commitRootId id

namespace Rooted

variable {block : ExecutedBlock}

theorem rank_eq (h : t.Rooted U) {id} (hblock : t.getBlock id = some block) :
    U.rank id = block.round + 1 := by
  have hid : block.block.blockData.hash C = id := h.linked.id_eq hblock
  rw [← hid, U.rank_eq (h.known hblock)]
  rfl

theorem roundOf_lt (h : t.Rooted U) {p c} (hc : t.Child p c) : t.roundOf p < t.roundOf c := by
  obtain ⟨_, hchild, -, hlt⟩ := h.linked.child hc
  obtain ⟨_, hparent⟩ := exists_getBlock hc.stored
  rw [h.rank_eq hparent, h.rank_eq hchild] at hlt
  rw [roundOf_getBlock hparent, roundOf_getBlock hchild]
  omega

theorem ancestor_of_reaches (h : t.Rooted U) {a b} (hab : t.Reaches a b) : U.Ancestor a b := by
  refine ReflTransGen.mono (fun p c hchild => ?_) _ _ hab
  obtain ⟨_, hblock, hparent, -⟩ := h.linked.child hchild
  exact ⟨_, h.known hblock, h.linked.id_eq hblock, hparent⟩

/-- Between two blocks below a third, ancestors are found by child links. -/
theorem reaches_of_ancestor (h : t.Rooted U) {a b x} (hb : t.Reaches a b)
    (hx : t.Reaches a x) (hbx : U.Ancestor b x) : t.Reaches b x := by
  -- follow the way down to `x`, as long as it has not passed `b`
  induction hx with
  | refl =>
    have hab := h.ancestor_of_reaches hb
    rw [U.forest.eq_of_rank_le hbx (U.forest.rank_le hab)]
  | @tail _ z _ hchild ih =>
    rcases hbx.cases_tail with rfl | ⟨q, hbq, hedge⟩
    · exact .refl
    · obtain ⟨block, hblock, rfl, -⟩ := h.linked.child hchild
      have hparent : U.Parent block.parentId z :=
        ⟨_, h.known hblock, h.linked.id_eq hblock, rfl⟩
      rw [U.forest.unique hedge hparent] at hbq
      exact (ih hbq).tail hchild

theorem new {root rootQuorumCert rootLedgerInfo maxPruned tc}
    (hnew : BlockTree.new C root rootQuorumCert rootLedgerInfo maxPruned tc = .ok t)
    (hknown : U.Known root.block.blockData) : t.Rooted U := by
  refine ⟨new_ranked hnew, fun hblock => ?_, fun id hid _ => ?_⟩
  · obtain ⟨_, hstored, rfl⟩ := getBlock_eq_some_iff.mp hblock
    rw [(new_getElem? hnew hstored).2]
    exact hknown
  · simp only [BlockTree.new, bind_eq_ok, pure_eq_ok] at hnew
    obtain ⟨_, -, rfl⟩ := hnew
    obtain rfl : root.id C = id := by simpa using hid
    exact .refl

theorem parent_of_known (hknown : U.Known block.block.blockData) :
    U.Parent block.parentId (block.id C) :=
  ⟨_, hknown, rfl, rfl⟩

theorem withBlock (h : t.Rooted U) {parent} (hknown : U.Known block.block.blockData)
    (hnew : block.id C ∉ t.idToBlock) (hparent : t.idToBlock[block.parentId]? = some parent) :
    (t.withBlock C parent block).Rooted U where
  linked := by
    have hrank := U.forest.rank_lt (parent_of_known hknown)
    have hlinked := Ranked.withBlock hnew hparent h.linked hrank
    rwa [Function.update_eq_self] at hlinked
  known := by
    intro id _ hstored
    rw [withBlock_getBlock hparent] at hstored
    split at hstored
    · cases hstored
      exact hknown
    · exact h.known hstored
  reaches := by
    intro id hid hanc
    refine (withBlock_reaches_iff hnew hparent _ _).mpr ?_
    rcases (withBlock_mem_iff hparent id).mp hid with hid | rfl
    · exact .inl (h.reaches id hid hanc)
    · rcases hanc.cases_tail with heq | ⟨p, hp, hedge⟩
      · exact absurd (heq ▸ h.linked.commitRoot) hnew
      · rw [U.forest.unique hedge (parent_of_known hknown)] at hp
        exact .inr ⟨rfl, h.reaches _ (mem_iff_exists.mpr ⟨parent, hparent⟩) hp⟩

theorem processed (h : t.Rooted U) {nextRootId ids}
    (hnext : t.Reaches t.commitRootId nextRootId) (hp : t.PrunedBy nextRootId ids)
    (hdone : t.Processed nextRootId ids t') : t'.Rooted U where
  linked := h.linked.processed hnext hp hdone
  known := by
    intro id _ hblock
    rw [processed_getBlock hdone, Option.ite_none_left_eq_some] at hblock
    exact h.known hblock.2
  reaches := by
    intro id hid hanc
    rw [hdone.commitRootId] at hanc
    rw [processed_commitRoot_reaches_iff h.linked hnext hp hdone]
    have hbelow := h.reaches id ((processed_mem_iff hdone).mp hid).2
      ((h.ancestor_of_reaches hnext).trans hanc)
    exact h.reaches_of_ancestor hnext hbelow hanc

end Rooted

theorem prunedBy_of_find {order rank} (h : t.Ranked C rank)
    (hnext : t.Reaches t.commitRootId nextRootId)
    (hids : t.findBlocksToPrune C order nextRootId = .ok ids) : t.PrunedBy nextRootId ids := by
  obtain ⟨_, hids', hp⟩ := findBlocksToPrune_spec h order hnext
  rw [Except.ok.inj (hids.symm.trans hids')]
  exact hp

def Pending (C : Crypto) (t : BlockTree) : HashValue → List (List ExecutedBlock) → Prop
  | id, [] => id = t.rootId
  | id, path :: rest => ∃ block, path.getLast? = some block ∧ t.Reaches id (block.id C) ∧
      t.Pending C (block.id C) rest

namespace Pending

variable {id : HashValue} {pending : List (List ExecutedBlock)}

theorem reaches (h : t.Pending C id pending) : t.Reaches id t.rootId := by
  induction pending generalizing id with
  | nil => exact h ▸ .refl
  | cons _ _ ih =>
    obtain ⟨_, -, hreach, hrest⟩ := h
    exact hreach.trans (ih hrest)

theorem mono (h : t.Pending C id pending) (hroot : t'.rootId = t.rootId)
    (hreach : ∀ a b, t.Reaches id a → t.Reaches a b → t'.Reaches a b) :
    t'.Pending C id pending := by
  induction pending generalizing id with
  | nil => exact Eq.trans h hroot.symm
  | cons _ _ ih =>
    obtain ⟨block, hlast, hblock, hrest⟩ := h
    exact ⟨block, hlast, hreach _ _ .refl hblock,
      ih hrest fun a b ha hab => hreach a b (hblock.trans ha) hab⟩

theorem append (h : t.Pending C id pending) {path} {block : ExecutedBlock}
    (hlast : path.getLast? = some block) (hreach : t.Reaches t.rootId (block.id C)) :
    ({ t with rootId := block.id C }).Pending C id (pending ++ [path]) := by
  induction pending generalizing id with
  | nil =>
    obtain rfl : id = t.rootId := h
    exact ⟨block, hlast, hreach, rfl⟩
  | cons _ _ ih =>
    obtain ⟨first, hfirst, hhead, hrest⟩ := h
    exact ⟨first, hfirst, hhead, ih hrest⟩

end Pending

end BlockTree

end Loki.Diem
