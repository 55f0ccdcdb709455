import Loki.Diem.CoreMempool.Readiness
import Mathlib.Data.Set.Card

/-!
# The mempool keeps its books

The expiry indexes hold the stored transactions and no others, nothing in another index leads to a
transaction that is gone, and each stored transaction waits in the priority index or in the parking
lot.
-/

namespace Loki.Diem.CoreMempool

open MempoolTransaction (isReady)

namespace TransactionStore

variable {store store' : TransactionStore}

def Placed (store : TransactionStore) (pointer : TxnPointer) : Prop :=
  store.InPriority pointer ∨ store.parkingLotIndex.Parks pointer

def AllPlaced (store : TransactionStore) : Prop :=
  ∀ pointer txn, store.find pointer = some txn → store.Placed pointer

theorem AllPlaced.drops (h : store.AllPlaced) {D F} (hdrops : Drops store store' D F) :
    store'.AllPlaced := by
  intro pointer txn htxn
  obtain ⟨hold, hD⟩ := hdrops.find_eq_some.mp htxn
  by_cases hF : F pointer
  · exact .inr ((hdrops.holds (.parked pointer)).mpr ⟨.inr hF, hD⟩)
  · rcases h pointer txn hold with ⟨key, hkey, rfl⟩ | hparks
    · exact .inl ⟨key, (hdrops.holds (.priority key)).mpr ⟨⟨hkey, hF⟩, hD⟩, rfl⟩
    · exact .inr ((hdrops.holds (.parked pointer)).mpr ⟨.inl hparks, hD⟩)

/-- A transaction of the account that is in neither index yet is promoted or parked. -/
theorem ProcessesReady.allPlaced {address first stop}
    (hready : ProcessesReady store store' address first stop)
    (h : ∀ pointer txn, store.find pointer = some txn → store.Placed pointer ∨
      pointer.1 = address ∧ first ≤ pointer.2 ∧ txn.isReady = false) : store'.AllPlaced := by
  intro pointer txn htxn
  by_cases hrange : InRange address first stop pointer
  · exact .inl (hready.priority_promoted pointer hrange)
  · rw [hready.find_kept pointer hrange] at htxn
    rcases h pointer txn htxn with (⟨key, hkey, rfl⟩ | hparks) | ⟨rfl, hge, hstate⟩
    · exact .inl ⟨key, (hready.priority_kept key hrange).mpr hkey, rfl⟩
    · exact .inr ((hready.parks pointer).mpr (.inl ⟨hparks, hrange⟩))
    · have hne : pointer.2 ≠ stop := by
        rintro rfl
        rw [hready.gap] at htxn
        cases htxn
      have hlt : stop < pointer.2 := by
        by_contra hle
        exact hrange ⟨rfl, hge, by omega⟩
      exact .inr ((hready.parks pointer).mpr (.inr ⟨rfl, hlt, txn, htxn, hstate⟩))

theorem AllPlaced.changes (h : store.AllPlaced) (hchanges : Changes store store') :
    store'.AllPlaced := by
  cases hchanges with
  | drops hdrops => exact h.drops hdrops
  | promotes hdrops hready =>
    exact hready.allPlaced fun pointer txn htxn => .inl (h.drops hdrops pointer txn htxn)
  | @adds _ _ _ _ txn _ _ hdrops _ hge hstate hready =>
    refine hready.allPlaced fun pointer found hfound => ?_
    rw [find_put] at hfound
    split at hfound
    next heq =>
      subst heq
      rw [← Option.some.inj hfound]
      exact .inr ⟨rfl, hge, hstate⟩
    · exact .inl (h.drops hdrops pointer found hfound)

theorem Changes.capacities (h : Changes store store') :
    store'.capacity = store.capacity ∧ store'.capacityPerUser = store.capacityPerUser := by
  cases h with
  | drops hdrops => exact ⟨hdrops.capacity, hdrops.capacityPerUser⟩
  | promotes hdrops hready | adds hdrops _ _ _ hready =>
    exact ⟨hready.capacity.trans hdrops.capacity,
      hready.capacityPerUser.trans hdrops.capacityPerUser⟩

structure Books (store : TransactionStore) (capacity capacityPerUser : Nat) : Prop where
  ttl : ∀ b key, key ∈ store.ttlIndex b ↔
    ∃ txn, store.find key.pointer = some txn ∧ ttlKey b txn = key
  priority : ∀ key ∈ store.priorityIndex, ∃ txn, store.find key.pointer = some txn
  timeline : ∀ pointer, store.InTimeline pointer → ∃ txn, store.find pointer = some txn
  parked : ∀ pointer, store.parkingLotIndex.Parks pointer → ∃ txn, store.find pointer = some txn
  placed : store.AllPlaced
  capacity : {pointer | ∃ txn, store.find pointer = some txn}.encard ≤ capacity
  capacityPerUser : ∀ address, (store.account address).size ≤ capacityPerUser
  parkingLot : store.parkingLotIndex.Valid

theorem Consistent.encard_le (h : store.Consistent) :
    {pointer | ∃ txn, store.find pointer = some txn}.encard ≤ store.capacity := by
  have hsub : {pointer | ∃ txn, store.find pointer = some txn} ⊆
      ((store.systemTtlIndex.map TTLOrderingKey.pointer).toFinset : Set TxnPointer) := by
    rintro pointer ⟨txn, htxn⟩
    have hkey : ttlKey true txn ∈ store.systemTtlIndex := h.2.ttl true pointer txn htxn
    have hpointer := (pointer_ttlKey true txn).trans (h.1.stored pointer txn htxn)
    simpa using ⟨_, hkey, hpointer⟩
  have hcard : (store.systemTtlIndex.map TTLOrderingKey.pointer).toFinset.card ≤ store.capacity :=
    (List.toFinset_card_le _).trans ((List.length_map _).trans_le h.2.capacity)
  refine (Set.encard_le_encard hsub).trans ?_
  rw [Set.encard_coe_eq_coe_finsetCard]
  exact Nat.cast_le.mpr hcard

theorem Consistent.books (h : store.Consistent) (hplaced : store.AllPlaced) :
    store.Books store.capacity store.capacityPerUser where
  ttl b key := by
    refine ⟨fun hkey => (h.1.held (.ttl b key) hkey).imp fun _ => And.imp_right Eq.symm, ?_⟩
    rintro ⟨txn, htxn, rfl⟩
    exact h.2.ttl b _ txn htxn
  priority _ := h.1.priority
  timeline pointer hentry := by
    obtain ⟨id, hid⟩ := hentry
    obtain ⟨txn, htxn, -⟩ := h.1.held (.timeline id pointer) hid
    exact ⟨txn, htxn⟩
  parked _ := h.1.parked
  placed := hplaced
  capacity := h.encard_le
  capacityPerUser := h.2.capacityPerUser
  parkingLot := h.1.valid

end TransactionStore

namespace Mempool

open TransactionStore Loki.Foundation

structure Kept (config : MempoolConfig) (mempool : Mempool) : Prop where
  consistent : mempool.transactions.Consistent
  placed : mempool.transactions.AllPlaced
  capacity : mempool.transactions.capacity = config.capacity
  capacityPerUser : mempool.transactions.capacityPerUser = config.capacityPerUser

theorem Kept.step {config} {mempool : Mempool} (h : Kept config mempool) {operation}
    (hunready : operation.Unready) : Kept config (mempool.step operation) := by
  have hchanges := changes_step hunready h.consistent
  obtain ⟨hcapacity, hcapacityPerUser⟩ := hchanges.capacities
  exact
    { consistent := h.consistent.changes hchanges
      placed := h.placed.changes hchanges
      capacity := hcapacity.trans h.capacity
      capacityPerUser := hcapacityPerUser.trans h.capacityPerUser }

/-- After any operations on transactions that are not ready, the indexes agree with the store and
the capacities are kept. -/
theorem books_run (config : MempoolConfig) (operations : List Operation)
    (hunready : ∀ operation ∈ operations, operation.Unready) :
    (run config operations).transactions.Books config.capacity config.capacityPerUser := by
  have hnew : Kept config (new config) :=
    ⟨Consistent.empty _ _, fun _ _ htxn => by simp [new, find, account] at htxn, rfl, rfl⟩
  have halong : Along step (fun _ operation => operation.Unready) (new config) operations :=
    .of_forall fun _ => hunready
  have hrun : Kept config (run config operations) :=
    Along.invariant (fun _ _ hkept hoperation => hkept.step hoperation) hnew halong
  rw [← hrun.capacity, ← hrun.capacityPerUser]
  exact hrun.consistent.books hrun.placed

/-- Number 3 is parked behind a gap, and the collection drops number 1. -/
theorem books_run_commitThenGc :
    (∀ operation ∈ commitThenGc, operation.Unready) ∧
      (run ⟨10, 5, 60⟩ commitThenGc).transactions.Books 10 5 :=
  ⟨by decide, books_run ⟨10, 5, 60⟩ commitThenGc (by decide)⟩

end Mempool

end Loki.Diem.CoreMempool
