import Loki.Diem.CoreMempool.Promotion

/-!
# The ways an insertion ends

`insert` refuses a transaction, replaces one, makes room for one in the parking lot, or stops at a
capacity.  In each case the indexes still agree with the store.
-/

namespace Loki.Diem.CoreMempool.TransactionStore

open Loki.Foundation ParkingLotIndex Std.ExtTreeMap

variable {store store' : TransactionStore} {txn : MempoolTransaction}
  {currentSequenceNumber : Nat}

inductive Evicts (store : TransactionStore) : TransactionStore → Prop where
  | none : Evicts store store
  | one (pointer : TxnPointer) (hfull : store.capacity ≤ store.systemTtlIndex.length)
      (hparks : store.parkingLotIndex.Parks pointer) : Evicts store (store.removeAt pointer)

theorem evicts_checkIsFull (store) (txn : MempoolTransaction)
    (currentSequenceNumber random : Nat) :
    Evicts store (store.checkIsFullAfterEviction txn currentSequenceNumber random).1 := by
  simp only [checkIsFullAfterEviction]
  split
  case isFalse => exact .none
  next hfull =>
    split
    next pointer hpoppable => exact .one pointer hfull.1 (parks_of_getPoppable hpoppable)
    · exact .none

inductive InsertsNew (store : TransactionStore) (txn : MempoolTransaction)
    (currentSequenceNumber : Nat) : TransactionStore → Prop where
  | full (store₁ : TransactionStore) (hevicts : Evicts store store₁)
      (hfull : store₁.capacity ≤ store₁.systemTtlIndex.length) :
      InsertsNew store txn currentSequenceNumber store₁
  | tooMany (store₁ store₂ : TransactionStore) (hevicts : Evicts store store₁)
      (hclean : store₂ = store₁.cleanCommittedTransactions txn.getSender currentSequenceNumber)
      (hsize : store₂.capacityPerUser ≤ (store₂.account txn.getSender).size) :
      InsertsNew store txn currentSequenceNumber store₂
  | accepted (store₁ store₂ : TransactionStore) (hevicts : Evicts store store₁)
      (hroom : store₁.systemTtlIndex.length < store₁.capacity)
      (hclean : store₂ = store₁.cleanCommittedTransactions txn.getSender currentSequenceNumber)
      (hsize : (store₂.account txn.getSender).size < store₂.capacityPerUser) :
      InsertsNew store txn currentSequenceNumber
        ((store₂.put txn).processReadyTransactions txn.getSender currentSequenceNumber)

theorem insertsNew_insertNew (store) (txn : MempoolTransaction)
    (currentSequenceNumber random : Nat) : InsertsNew store txn currentSequenceNumber
      (store.insertNew txn currentSequenceNumber random).1 := by
  have hevicts := evicts_checkIsFull store txn currentSequenceNumber random
  unfold insertNew
  simp only
  split
  next hfull => exact .full _ hevicts (of_decide_eq_true hfull)
  next hroom =>
    have hroom := of_decide_eq_false (Bool.not_eq_true _ ▸ hroom)
    split
    next hsize => exact .tooMany _ _ hevicts rfl hsize
    next hsize =>
      exact .accepted _ _ hevicts (Nat.lt_of_not_le hroom) rfl (Nat.lt_of_not_le hsize)

inductive Inserts (store : TransactionStore) (txn : MempoolTransaction)
    (currentSequenceNumber : Nat) : TransactionStore → Prop where
  | refused (current : MempoolTransaction) (hfind : store.find txn.pointer = some current) :
      Inserts store txn currentSequenceNumber store
  | new (store' : TransactionStore) (hfind : store.find txn.pointer = none)
      (hinserts : InsertsNew store txn currentSequenceNumber store') :
      Inserts store txn currentSequenceNumber store'
  | replaced (store' : TransactionStore) (current : MempoolTransaction)
      (hfind : store.find txn.pointer = some current)
      (hinserts : InsertsNew (store.removeAt txn.pointer) txn currentSequenceNumber store') :
      Inserts store txn currentSequenceNumber store'

theorem inserts_insert (store) (txn : MempoolTransaction)
    (currentSequenceNumber random : Nat) :
    Inserts store txn currentSequenceNumber (store.insert txn currentSequenceNumber random).1 := by
  unfold insert
  cases hfind : store.find txn.pointer with
  | none => exact .new _ hfind (insertsNew_insertNew store txn currentSequenceNumber random)
  | some current =>
    simp only
    split
    · exact .refused current hfind
    · split
      · exact .replaced _ current hfind (insertsNew_insertNew _ txn _ random)
      · exact .refused current hfind

/-! ## The agreement -/

def Consistent (store : TransactionStore) : Prop := store.Indexed ∧ store.Accounted

theorem Consistent.drops (h : store.Consistent) {D F}
    (hdrops : Drops store store' D F) : store'.Consistent :=
  ⟨h.1.drops hdrops, h.2.drops h.1 hdrops⟩

theorem Evicts.drops (hindexed : store.Indexed) (h : Evicts store store') :
    ∃ D, (∀ pointer, D pointer → store.parkingLotIndex.Parks pointer) ∧
      Drops store store' D fun _ => False := by
  cases h with
  | none => exact ⟨fun _ => False, fun _ hD => hD.elim, hindexed.drops_self fun _ hD => hD.elim⟩
  | one pointer _ hparks =>
    refine ⟨(· = pointer), ?_, hindexed.drops_removeAt pointer⟩
    rintro _ rfl
    exact hparks

theorem Drops.trans_removal {D D' store''} (h : Drops store store' D fun _ => False)
    (h' : Drops store' store'' D' fun _ => False) :
    Drops store store'' (fun p => D p ∨ D' p) fun _ => False := by
  simpa using h.trans h'

section

variable (h : store.Consistent)

include h

theorem Consistent.clean_put (hnew : store.find txn.pointer = none) (hstate : txn.isReady = false)
    (hroom : store.systemTtlIndex.length < store.capacity)
    (hclean : store' = store.cleanCommittedTransactions txn.getSender currentSequenceNumber)
    (hsize : (store'.account txn.getSender).size < store'.capacityPerUser) :
    (store'.put txn).Consistent := by
  have hdrops := h.1.drops_clean txn.getSender currentSequenceNumber
  rw [← hclean] at hdrops
  have h' := h.drops hdrops
  have hnew' : store'.find txn.pointer = none := hdrops.find_eq_none (.inr hnew)
  have hroom' : store'.systemTtlIndex.length < store'.capacity := by
    rw [hdrops.capacity]
    exact hdrops.length_le.trans_lt hroom
  exact ⟨h'.1.put hnew' hstate, h'.2.put hroom' hsize⟩

theorem Consistent.room_removeAt {pointer} (hfind : store.find pointer = some txn) :
    (store.removeAt pointer).systemTtlIndex.length < (store.removeAt pointer).capacity ∧
      ((store.removeAt pointer).account pointer.1).size <
        (store.removeAt pointer).capacityPerUser := by
  have hremove : store.removeAt pointer = (store.erase pointer).indexRemove txn := by
    rw [removeAt, hfind]
  rw [hremove]
  constructor
  · refine Nat.lt_of_lt_of_le (BTreeSet.length_remove_lt ?_) h.2.capacity
    exact ⟨_, h.2.ttl true pointer txn hfind, TTLOrderingKey.cmp_eq_iff.mpr rfl⟩
  · refine Nat.lt_of_lt_of_le ?_ (h.2.capacityPerUser pointer.1)
    change ((store.erase pointer).account pointer.1).size < _
    have hmem : (store.account pointer.1).contains pointer.2 = true := by
      rw [← isSome_getElem?_eq_contains]
      exact Option.isSome_iff_exists.mpr ⟨txn, hfind⟩
    have hpos : 0 < (store.account pointer.1).size := by
      refine Nat.pos_of_ne_zero fun hzero => ?_
      rw [eq_empty_iff_size_eq_zero.mpr hzero] at hmem
      simp at hmem
    rw [erase, account_setAccount, if_pos rfl, size_erase, if_pos hmem]
    omega

end

/-- Transactions leave, one may come in, and the account it belongs to may be promoted. -/
inductive Changes (store : TransactionStore) : TransactionStore → Prop where
  | drops {store' D F} (hdrops : Drops store store' D F) : Changes store store'
  | promotes {store₁ store' D F address first stop} (hdrops : Drops store store₁ D F)
      (hready : ProcessesReady store₁ store' address first stop) : Changes store store'
  | adds {store₁ store' D F txn first stop} (hdrops : Drops store store₁ D F)
      (hput : (store₁.put txn).Consistent) (hge : first ≤ txn.getSequenceNumber)
      (hstate : txn.isReady = false)
      (hready : ProcessesReady (store₁.put txn) store' txn.getSender first stop) :
      Changes store store'

section

variable (h : store.Consistent)

include h

theorem Consistent.changes (hchanges : Changes store store') : store'.Consistent := by
  cases hchanges with
  | drops hdrops => exact h.drops hdrops
  | promotes hdrops hready => exact ⟨hready.indexed, hready.accounted (h.drops hdrops).2⟩
  | adds _ hput _ _ hready => exact ⟨hready.indexed, hready.accounted hput.2⟩

theorem Consistent.changes_self : Changes store store :=
  .drops (h.1.drops_self (D := fun _ => False) fun _ hD => hD.elim)

/-- An insertion takes out parked transactions, those below the current number of the account and
the one it replaces.  It then stops, or puts in its own and promotes the account. -/
inductive Inserted (store : TransactionStore) (txn : MempoolTransaction)
    (currentSequenceNumber : Nat) : TransactionStore → Prop where
  | stopped {store' D} (hdrops : Drops store store' D fun _ => False)
      (hD : ∀ p, D p → store.parkingLotIndex.Parks p ∨
        p.1 = txn.getSender ∧ p.2 < currentSequenceNumber) :
      Inserted store txn currentSequenceNumber store'
  | accepted {store₁ store' D stop} (hdrops : Drops store store₁ D fun _ => False)
      (hD : ∀ p, D p → p = txn.pointer ∨ store.parkingLotIndex.Parks p ∨
        p.1 = txn.getSender ∧ p.2 < currentSequenceNumber)
      (hbelow : ∀ number < currentSequenceNumber, store₁.find (txn.getSender, number) = none)
      (hnew : store₁.find txn.pointer = none) (hput : (store₁.put txn).Consistent)
      (hready : ProcessesReady (store₁.put txn) store' txn.getSender currentSequenceNumber stop) :
      Inserted store txn currentSequenceNumber store'

theorem Consistent.inserted_accepted {store₁ store₂ D}
    (hdrops : Drops store store₁ D fun _ => False)
    (hD : ∀ p, D p → p = txn.pointer ∨ store.parkingLotIndex.Parks p)
    (hnew : store₁.find txn.pointer = none) (hstate : txn.isReady = false)
    (hroom : store₁.systemTtlIndex.length < store₁.capacity)
    (hclean : store₂ = store₁.cleanCommittedTransactions txn.getSender currentSequenceNumber)
    (hsize : (store₂.account txn.getSender).size < store₂.capacityPerUser) :
    Inserted store txn currentSequenceNumber
      ((store₂.put txn).processReadyTransactions txn.getSender currentSequenceNumber) := by
  have h₁ := h.drops hdrops
  have hput := h₁.clean_put hnew hstate hroom hclean hsize
  obtain ⟨_, hready⟩ := hput.1.processesReady txn.getSender currentSequenceNumber
  have hdrops' := h₁.1.drops_clean txn.getSender currentSequenceNumber
  rw [← hclean] at hdrops'
  refine .accepted (hdrops.trans_removal hdrops') (fun p hp => ?_) (fun number hlt => ?_)
    (hdrops'.find_eq_none (.inr hnew)) hput hready
  · rcases hp with hp | hp
    · exact (hD p hp).imp_right .inl
    · exact .inr (.inr hp)
  · exact hdrops'.find_eq_none (.inl ⟨rfl, hlt⟩)

theorem Consistent.inserted (hstate : txn.isReady = false)
    (hinserts : Inserts store txn currentSequenceNumber store') :
    Inserted store txn currentSequenceNumber store' := by
  cases hinserts with
  | refused => exact .stopped (h.1.drops_self (D := fun _ => False) (by simp)) (by simp)
  | new _ hfind hnew =>
    cases hnew with
    | full _ hevicts =>
      obtain ⟨D, hD, hdrops⟩ := hevicts.drops h.1
      exact .stopped hdrops fun p hp => .inl (hD p hp)
    | tooMany _ _ hevicts hclean =>
      obtain ⟨D, hD, hdrops⟩ := hevicts.drops h.1
      rw [hclean]
      exact .stopped (hdrops.trans_removal ((h.1.drops hdrops).drops_clean _ _))
        fun p hp => hp.imp_left (hD p)
    | accepted _ _ hevicts hroom hclean hsize =>
      obtain ⟨D, hD, hdrops⟩ := hevicts.drops h.1
      exact h.inserted_accepted hdrops (fun p hp => .inr (hD p hp))
        (hdrops.find_eq_none (.inr hfind)) hstate hroom hclean hsize
  | replaced _ _ hfind hnew =>
    have hdrops := h.1.drops_removeAt txn.pointer
    obtain ⟨hroom, hroomPerUser⟩ := h.room_removeAt hfind
    -- what was taken out left the room that the insertion needs
    have hevicts' {store₁} (hevicts : Evicts (store.removeAt txn.pointer) store₁) :
        store₁ = store.removeAt txn.pointer := by
      cases hevicts with
      | none => rfl
      | one _ hfull => exact absurd hroom (not_lt.mpr hfull)
    cases hnew with
    | full _ hevicts hfull =>
      rw [hevicts' hevicts] at hfull
      exact absurd hroom (not_lt.mpr hfull)
    | tooMany _ _ hevicts hclean hsize =>
      rw [hevicts' hevicts] at hclean
      have hdrops' := (h.1.drops hdrops).drops_clean txn.getSender currentSequenceNumber
      rw [← hclean] at hdrops'
      rw [hdrops'.capacityPerUser] at hsize
      exact absurd (hsize.trans (hdrops'.size_le _)) (not_le.mpr hroomPerUser)
    | accepted _ _ hevicts _ hclean hsize =>
      rw [hevicts' hevicts] at hclean
      exact h.inserted_accepted hdrops (fun p hp => .inl hp) (hdrops.find_eq_none (.inl rfl)) hstate
        hroom hclean hsize

theorem Consistent.changes_insert (hstate : txn.isReady = false)
    (hge : currentSequenceNumber ≤ txn.getSequenceNumber)
    (hinserts : Inserts store txn currentSequenceNumber store') : Changes store store' := by
  cases h.inserted hstate hinserts with
  | stopped hdrops => exact .drops hdrops
  | accepted hdrops _ _ _ hput hready => exact .adds hdrops hput hge hstate hready

theorem Consistent.changes_commit (account : AccountAddress) (number : Nat) :
    Changes store (store.commitTransaction account number) := by
  have hclean := h.1.drops_clean account number
  obtain ⟨_, hready⟩ := (h.1.drops hclean).processesReady account number
  exact .promotes hclean hready

theorem Consistent.changes_gc (now : Nat) (bySystemTtl : Bool) :
    Changes store (store.gc now bySystemTtl) := by
  obtain ⟨F, -, hdrops⟩ := h.1.drops_gc now bySystemTtl
  exact .drops hdrops

end

theorem Consistent.empty (capacity capacityPerUser : Nat) :
    Consistent { capacity := capacity, capacityPerUser := capacityPerUser } := by
  have hfind pointer :
      find { capacity := capacity, capacityPerUser := capacityPerUser } pointer = none := by
    simp [find, account]
  refine ⟨?_, ?_⟩
  · refine ⟨by simp [hfind], fun entry hentry => ?_, by simp [hfind], by simp [hfind], Valid.empty⟩
    cases entry <;> simp [Holds, Parks, ttlIndex] at hentry
  · constructor <;> simp [hfind, account]

end Loki.Diem.CoreMempool.TransactionStore
