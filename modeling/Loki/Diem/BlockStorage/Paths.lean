import Loki.Diem.BlockStorage.TreeInvariant

/-!
# The path from the root

`path_from_root` walks up along parent links.  From a block below the root the rounds sink down to
the round of the root, so that the walk ends there.
-/

namespace Loki.Diem

open Loki.Foundation Relation Std.ExtTreeMap Finset Option Nat Except ExecutedBlock

namespace BlockTree

variable {C : Crypto} {t : BlockTree}

def lower (t : BlockTree) (id : HashValue) : Finset HashValue :=
  t.idToBlock.keys.toFinset.filter fun id' => t.roundOf id' < t.roundOf id

theorem lower_card_lt {p c} (hp : p ∈ t.idToBlock) (hlt : t.roundOf p < t.roundOf c) :
    (t.lower p).card < (t.lower c).card := by
  refine card_lt_card (ssubset_iff_of_subset ?_ |>.mpr ⟨p, ?_, ?_⟩)
  · intro _ hid
    obtain ⟨hstored, hround⟩ := mem_filter.mp hid
    exact mem_filter.mpr ⟨hstored, hround.trans hlt⟩
  · refine mem_filter.mpr ⟨?_, hlt⟩
    rw [List.mem_toFinset, mem_keys]
    exact hp
  · exact fun hid => lt_irrefl _ (mem_filter.mp hid).2

theorem lower_card_le (id : HashValue) : (t.lower id).card ≤ t.idToBlock.size := by
  refine (card_filter_le _ _).trans ?_
  rw [List.toFinset_card_of_nodup nodup_keys, length_keys]

/-- A block that comes from the root by links along which the rounds grow. -/
theorem pathLoop_of_reaches {link root id}
    (hlink : ∀ {p c}, link p c → p ∈ t.idToBlock ∧ t.roundOf p < t.roundOf c ∧
      ∃ block, t.getBlock c = some block ∧ block.parentId = p)
    (hroot : t.getBlock t.rootId = some root) (hid : ReflTransGen link t.rootId id) :
    root.round ≤ t.roundOf id ∧ ∀ fuel path, (t.lower id).card < fuel →
      ∃ above, t.pathLoop root fuel id path = .ok (some (t.rootId, above ++ path)) ∧
        (id ≠ t.rootId → above.getLast? = t.getBlock id) := by
  induction hid with
  | refl =>
    refine ⟨(roundOf_getBlock hroot).ge, fun fuel path hfuel => ?_⟩
    obtain ⟨fuel, rfl⟩ := exists_eq_add_one_of_ne_zero (ne_zero_of_lt hfuel)
    exact ⟨[], by simp [pathLoop, hroot], fun hne => absurd rfl hne⟩
  | tail _ hedge ih =>
    obtain ⟨hle, ih⟩ := ih
    obtain ⟨hstored, hlt, block, hblock, rfl⟩ := hlink hedge
    refine ⟨hle.trans hlt.le, fun fuel path hfuel => ?_⟩
    obtain ⟨fuel, rfl⟩ := exists_eq_add_one_of_ne_zero (ne_zero_of_lt hfuel)
    have hround : ¬block.round ≤ root.round := by
      rw [← roundOf_getBlock hblock]
      omega
    have hcard := lower_card_lt hstored hlt
    obtain ⟨above, hloop, -⟩ := ih fuel (block :: path) (by omega)
    refine ⟨above ++ [block], ?_, fun _ => ?_⟩
    · simpa [pathLoop, hblock, hround] using hloop
    · rw [List.getLast?_append_of_ne_nil _ (List.cons_ne_nil _ _), hblock]
      rfl

theorem pathFromRoot_of_reaches {rank} (h : t.Ranked C rank)
    (hrounds : ∀ {p c}, t.Child p c → t.roundOf p < t.roundOf c) {root id}
    (hroot : t.getBlock t.rootId = some root) (hid : t.Reaches t.rootId id) :
    ∃ path, t.pathFromRoot id = .ok (some path) ∧
      (id ≠ t.rootId → path.getLast? = t.getBlock id) := by
  obtain ⟨block, hblock⟩ := exists_getBlock (h.stored_of_reaches (mem_of_getBlock hroot) hid)
  have hlink : ∀ {p c}, t.Child p c → p ∈ t.idToBlock ∧ t.roundOf p < t.roundOf c ∧
      ∃ block, t.getBlock c = some block ∧ block.parentId = p := by
    intro _ _ hchild
    obtain ⟨block, hblock, hparent, -⟩ := h.child hchild
    exact ⟨hchild.stored, hrounds hchild, block, hblock, hparent⟩
  obtain ⟨path, hloop, hlast⟩ := (pathLoop_of_reaches hlink hroot hid).2 _ []
    (lt_succ_of_le (lower_card_le id))
  refine ⟨path, ?_, hlast⟩
  simp only [pathFromRoot, hblock, bind_eq_ok]
  refine ⟨root, ?_, _, hloop, ?_⟩
  · rw [BlockTree.root, okOr_eq_ok]
    exact hroot
  · simp

/-! ## Every block of every reachable tree -/

def StoredParent (t : BlockTree) (p c : HashValue) : Prop :=
  p ∈ t.idToBlock ∧ ∃ block, t.getBlock c = some block ∧ block.parentId = p

/-- The blocks below `a` down to `b`, each the parent of the next. -/
def IsPath (t : BlockTree) : HashValue → List ExecutedBlock → HashValue → Prop
  | a, [], b => a = b
  | a, block :: path, b =>
    ∃ id, t.getBlock id = some block ∧ block.parentId = a ∧ t.IsPath id path b

/-- The commit root follows the root and does not pass it. -/
def KeepsRoot (t : BlockTree) : TreeOp → Prop
  | .updateRootId rootId => t.Reaches t.commitRootId rootId
  | .prune nextRootId => t.Reaches t.commitRootId nextRootId ∧ t.Reaches nextRootId t.rootId
  | _ => True

theorem KeepsRoot.downward {op} (h : t.KeepsRoot op) : op.Downward t := by
  cases op with
  | prune => exact h.1
  | _ => trivial

theorem Reachable.root_reached {order} (h : Reachable C order KeepsRoot t) :
    t.Reaches t.commitRootId t.rootId := by
  obtain ⟨_, _, _, _, _, _, hnew, hrun⟩ := h
  induction hrun with
  | refl =>
    simp only [new, bind_eq_ok, pure_eq_ok] at hnew
    obtain ⟨_, -, rfl⟩ := hnew
    exact .refl
  | tail hrun hstep ih =>
    obtain ⟨_, h⟩ := Reachable.ranked (fun _ _ => KeepsRoot.downward)
      ⟨_, _, _, _, _, _, hnew, hrun⟩
    cases hstep with
    | failed => exact ih
    | ok op permitted eq_ok =>
      cases op with
      | insertBlock =>
        simp only [perform, bind_eq_ok, pure_eq_ok] at eq_ok
        obtain ⟨⟨_, t''⟩, hinsert, rfl⟩ := eq_ok
        rcases insertBlock_spec hinsert with ⟨-, rfl⟩ | ⟨hnew, -, _, hparent, rfl⟩
        · exact ih
        · exact (withBlock_reaches_iff hnew hparent _ _).mpr (.inl ih)
      | insertQuorumCert =>
        obtain ⟨_, _, -, -, rfl⟩ := insertQuorumCert_spec eq_ok
        exact ih
      | updateRootId =>
        obtain ⟨-, rfl⟩ := updateRootId_spec eq_ok
        exact permitted
      | prune =>
        obtain ⟨_, _, heq, hpruned, hdone⟩ := perform_prune_spec order h permitted.1
        obtain rfl := ok.inj (heq.symm.trans eq_ok)
        rw [processed_commitRoot_reaches_iff h permitted.1 hpruned hdone, hdone.rootId]
        exact permitted.2

section

variable (hrounds : ∀ {p c}, t.StoredParent p c → t.roundOf p < t.roundOf c)

include hrounds

theorem IsPath.ascends {a b path} (ha : a ∈ t.idToBlock)
    (h : t.IsPath a path b) : ReflTransGen t.StoredParent a b ∧
      (t.roundOf a :: path.map round).IsChain (· < ·) := by
  induction path generalizing a with
  | nil =>
    cases h
    exact ⟨.refl, .singleton _⟩
  | cons block _ ih =>
    obtain ⟨id, hblock, rfl, h⟩ := h
    obtain ⟨hreach, hchain⟩ := ih (mem_of_getBlock hblock) h
    have hparent : t.StoredParent block.parentId id := ⟨ha, block, hblock, rfl⟩
    rw [roundOf_getBlock hblock] at hchain
    exact ⟨.head hparent hreach, hchain.cons_cons (roundOf_getBlock hblock ▸ hrounds hparent)⟩

/-- The walk ends, and what it has passed is a path. -/
theorem pathLoop_isPath {root} (hroot : t.getBlock t.rootId = some root)
    {id} (fuel : Nat) (cur : HashValue) (path : List ExecutedBlock)
    (hfuel : (t.lower cur).card < fuel) (hpath : t.IsPath cur path id) :
    ∃ found, t.pathLoop root fuel cur path = .ok found ∧ ∀ r ∈ found, t.IsPath r.1 r.2 id := by
  induction fuel generalizing cur path with
  | zero => simp at hfuel
  | succ _ ih =>
    unfold pathLoop
    cases hblock : t.getBlock cur with
    | none => exact ⟨none, rfl, by simp⟩
    | some block =>
      simp only
      split
      · exact ⟨_, rfl, by simpa using hpath⟩
      · next hround =>
          have hcard : (t.lower block.parentId).card < (t.lower cur).card := by
            by_cases hstored : block.parentId ∈ t.idToBlock
            · exact lower_card_lt hstored (hrounds ⟨hstored, block, hblock, rfl⟩)
            · -- the walk ends at a missing parent, and the root is lower than the block
              have hlt : t.roundOf t.rootId < t.roundOf cur := by
                rw [roundOf_getBlock hroot, roundOf_getBlock hblock]
                omega
              have hnone : t.lower block.parentId = ∅ := by
                simp [lower, roundOf, getBlock_eq_none hstored]
              rw [hnone, card_empty]
              exact zero_lt_of_lt (lower_card_lt (mem_of_getBlock hroot) hlt)
          exact ih block.parentId (block :: path) (by omega) ⟨cur, hblock, rfl, hpath⟩

end

/-- The path is found exactly for the root and the blocks below it through stored blocks. -/
theorem pathFromRoot_exact (C : Crypto) (order : HashSetOrder) (t : BlockTree) (id : HashValue)
    (h : Reachable C order KeepsRoot t) (hrounds : ∀ id block parent, t.getBlock id = some block →
      t.getBlock block.parentId = some parent → parent.round < block.round) :
    ∃ found, t.pathFromRoot id = .ok found ∧
      (found.isSome ↔ id ∈ t.idToBlock ∧ ReflTransGen t.StoredParent t.rootId id) ∧
      ∀ path ∈ found, t.IsPath t.rootId path id ∧
        (path.map round).Pairwise (· < ·) := by
  obtain ⟨_, hranked⟩ := h.ranked fun _ _ => KeepsRoot.downward
  have hstored : t.rootId ∈ t.idToBlock :=
    hranked.stored_of_reaches hranked.commitRoot h.root_reached
  obtain ⟨root, hroot⟩ := exists_getBlock hstored
  have hrounds : ∀ {p c}, t.StoredParent p c → t.roundOf p < t.roundOf c := by
    rintro _ c ⟨hp, block, hblock, rfl⟩
    obtain ⟨parent, hparent⟩ := exists_getBlock hp
    rw [roundOf_getBlock hparent, roundOf_getBlock hblock]
    exact hrounds c block parent hblock hparent
  cases hblock : t.getBlock id with
  | none =>
    refine ⟨none, by simp [pathFromRoot, hblock], ?_, by simp⟩
    simp only [isSome_none, Bool.false_eq_true, false_iff, not_and]
    intro hid
    obtain ⟨block, hsome⟩ := exists_getBlock hid
    cases hblock.symm.trans hsome
  | some =>
    obtain ⟨found, hloop, hpath⟩ := pathLoop_isPath hrounds hroot _ id []
      (lt_succ_of_le (lower_card_le id)) rfl
    have hreached : ReflTransGen t.StoredParent t.rootId id →
        ∃ path, found = some (t.rootId, path) := by
      intro hid
      obtain ⟨_, habove, -⟩ := (pathLoop_of_reaches (fun hp => ⟨hp.1, hrounds hp, hp.2⟩) hroot
        hid).2 _ [] (lt_succ_of_le (lower_card_le id))
      exact ⟨_, ok.inj (hloop.symm.trans habove)⟩
    have hresult : ∀ path, (found.bind fun r => if r.1 = t.rootId then some r.2 else none) =
        some path → t.IsPath t.rootId path id := by
      intro path hsome
      obtain ⟨⟨_, path⟩, hfound, hif⟩ := bind_eq_some_iff.mp hsome
      simp only [ite_none_right_eq_some, some.injEq] at hif
      obtain ⟨rfl, rfl⟩ := hif
      exact hpath _ hfound
    refine ⟨found.bind fun r => if r.1 = t.rootId then some r.2 else none, ?_, ⟨?_, ?_⟩, ?_⟩
    · simp only [pathFromRoot, hblock, BlockTree.root, bind_eq_ok, okOr_eq_ok]
      refine ⟨root, hroot, found, hloop, ?_⟩
      cases found <;> rfl
    · intro hsome
      obtain ⟨path, hsome⟩ := isSome_iff_exists.mp hsome
      exact ⟨mem_of_getBlock hblock, (IsPath.ascends hrounds hstored (hresult path hsome)).1⟩
    · rintro ⟨-, hid⟩
      obtain ⟨path, rfl⟩ := hreached hid
      simp
    · intro path hsome
      have hchain := (IsPath.ascends hrounds hstored (hresult path hsome)).2
      exact ⟨hresult path hsome, (List.isChain_iff_pairwise.mp hchain).of_cons⟩

/-- A root whose parent is not stored, and a block over it. -/
def grown : BlockTree :=
  ({ single 0 with
    idToBlock := (∅ : BTreeMap HashValue LinkableBlock).insert 0 (.new (roundBlock 9 0))
    }).after .byRound .sorted (.insertBlock (roundBlock 0 1))

theorem pathFromRoot_exact_grown :
    grown.pathFromRoot 1 = .ok (some [roundBlock 0 1]) ∧ grown.IsPath 0 [roundBlock 0 1] 1 := by
  have hrounds : ∀ x ∈ grown.idToBlock.toList, ∀ y ∈ grown.idToBlock.toList,
      x.2.executedBlock.parentId = y.1 → y.2.executedBlock.round < x.2.executedBlock.round := by
    decide +kernel
  obtain ⟨found, hfound, -, hpath⟩ := pathFromRoot_exact .byRound .sorted grown 1
    ⟨roundBlock 9 0, roundCert 0, roundCert 0, 0, none, _, rfl, .single (step_after trivial rfl)⟩
    (by
      intro _ _ _ hblock hparent
      obtain ⟨_, hstored, rfl⟩ := getBlock_eq_some_iff.mp hblock
      obtain ⟨_, hstored', rfl⟩ := getBlock_eq_some_iff.mp hparent
      exact hrounds _ (mem_toList_iff_getElem?_eq_some.mpr hstored) _
        (mem_toList_iff_getElem?_eq_some.mpr hstored') rfl)
  obtain rfl : some [roundBlock 0 1] = found := ok.inj (Eq.trans (by decide +kernel) hfound)
  exact ⟨hfound, (hpath _ rfl).1⟩

end BlockTree

end Loki.Diem
