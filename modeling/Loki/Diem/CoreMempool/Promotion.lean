import Loki.Diem.CoreMempool.Indexed

/-!
# What `process_ready_transactions` does

The transactions of an account from the current number up to the first gap enter the priority index
and the timeline and leave the parking lot; the rest of the account is parked.
-/

namespace Loki.Diem.CoreMempool.TransactionStore

open Loki.Foundation Std.ExtTreeMap Option OrderedQueueKey PriorityIndex BTreeSet List Nat

variable {store store' store'' : TransactionStore} {txn : MempoolTransaction}

def promoted (store : TransactionStore) (txn : MempoolTransaction) : MempoolTransaction :=
  if txn.timelineState = .notReady then
    { txn with timelineState := .ready store.timelineIndex.timelineId }
  else txn

@[simp] theorem pointer_promoted : (store.promoted txn).pointer = txn.pointer := by
  unfold promoted
  split <;> rfl

@[simp] theorem ttlKey_promoted (b : Bool) : ttlKey b (store.promoted txn) = ttlKey b txn := by
  unfold promoted
  split <;> rfl

@[simp] theorem makeKey_promoted : makeKey (store.promoted txn) = makeKey txn := by
  unfold promoted
  split <;> rfl

theorem find_promoteTxn (htxn : store.find txn.pointer = some txn) (pointer) :
    (store.promoteTxn txn).find pointer =
      if txn.pointer = pointer then some (store.promoted txn) else store.find pointer := by
  by_cases hstate : txn.timelineState = .notReady
  · rw [← find_setAccount_insert store txn.pointer pointer (store.promoted txn)]
    unfold promoteTxn enterTimeline promoted
    simp only [hstate, if_true]
    rfl
  · have hsame : (store.promoteTxn txn).find pointer = store.find pointer := by
      unfold promoteTxn enterTimeline
      simp only [hstate, if_false]
      rfl
    rw [hsame]
    split
    next heq => rw [← heq, htxn, promoted, if_neg hstate]
    · rfl

variable (store txn)

theorem timeline_promoteTxn (id : Nat) :
    (store.promoteTxn txn).timelineIndex.timeline[id]? =
      if txn.timelineState = .notReady ∧ store.timelineIndex.timelineId = id then some txn.pointer
      else store.timelineIndex.timeline[id]? := by
  unfold promoteTxn enterTimeline
  by_cases hstate : txn.timelineState = .notReady <;> simp [hstate, TimelineIndex.insert]

theorem timelineId_promoteTxn :
    (store.promoteTxn txn).timelineIndex.timelineId =
      if txn.timelineState = .notReady then store.timelineIndex.timelineId + 1
      else store.timelineIndex.timelineId := by
  unfold promoteTxn enterTimeline
  by_cases hstate : txn.timelineState = .notReady <;> simp [hstate, TimelineIndex.insert]

variable {store txn}

@[simp] theorem priorityIndex_promoteTxn :
    (store.promoteTxn txn).priorityIndex = store.priorityIndex.insert txn := by
  unfold promoteTxn enterTimeline
  split <;> rfl

@[simp] theorem parkingLotIndex_promoteTxn :
    (store.promoteTxn txn).parkingLotIndex = store.parkingLotIndex.remove txn.pointer := by
  unfold promoteTxn enterTimeline
  split <;> rfl

@[simp] theorem ttlIndex_promoteTxn : (store.promoteTxn txn).ttlIndex = store.ttlIndex := by
  unfold promoteTxn enterTimeline
  split <;> rfl

@[simp] theorem capacity_promoteTxn : (store.promoteTxn txn).capacity = store.capacity := by
  unfold promoteTxn enterTimeline
  split <;> rfl

@[simp] theorem capacityPerUser_promoteTxn :
    (store.promoteTxn txn).capacityPerUser = store.capacityPerUser := by
  unfold promoteTxn enterTimeline
  split <;> rfl

def InRange (address : AccountAddress) (first stop : Nat) (pointer : TxnPointer) : Prop :=
  pointer.1 = address ∧ first ≤ pointer.2 ∧ pointer.2 < stop

/-- The promotion of the transactions of an account from `first` up to `stop`. -/
structure Promotes (store store' : TransactionStore) (address : AccountAddress)
    (first stop : Nat) : Prop where
  first_le : first ≤ stop
  find_kept : ∀ pointer, ¬ InRange address first stop pointer →
    store'.find pointer = store.find pointer
  find_promoted : ∀ pointer, InRange address first stop pointer →
    ∃ txn txn', store.find pointer = some txn ∧ store'.find pointer = some txn' ∧
      (txn.timelineState ≠ .notReady ∧ txn' = txn ∨
        txn.timelineState = .notReady ∧ ∃ id, txn'.timelineState = .ready id ∧
          store'.timelineIndex.timeline[id]? = some pointer)
  priority_kept : ∀ key, ¬ InRange address first stop key.pointer →
    (key ∈ store'.priorityIndex ↔ key ∈ store.priorityIndex)
  priority_promoted : ∀ pointer, InRange address first stop pointer →
    ∃ key ∈ store'.priorityIndex, key.pointer = pointer
  timeline : ∀ (id : Nat) (pointer : TxnPointer),
    store.timelineIndex.timeline[id]? = some pointer →
    store'.timelineIndex.timeline[id]? = some pointer
  indexed : store'.Indexed
  accounted : store.Accounted → store'.Accounted
  capacity : store'.capacity = store.capacity
  capacityPerUser : store'.capacityPerUser = store.capacityPerUser

theorem not_inRange_self (address) (first : Nat) (pointer) :
    ¬ InRange address first first pointer := by
  rintro ⟨-, hle, hlt⟩
  omega

theorem Indexed.promotes_none (h : store.Indexed) (address) (first : Nat) :
    Promotes store store address first first where
  first_le := le_refl _
  find_kept _ _ := rfl
  find_promoted pointer hp := absurd hp (not_inRange_self address first pointer)
  priority_kept _ _ := Iff.rfl
  priority_promoted pointer hp := absurd hp (not_inRange_self address first pointer)
  timeline _ _ hid := hid
  indexed := h
  accounted := id
  capacity := rfl
  capacityPerUser := rfl

theorem Indexed.promoteTxn (h : store.Indexed) (htxn : store.find txn.pointer = some txn) :
    (store.promoteTxn txn).Indexed := by
  have hparking := h.valid.remove txn.pointer
  apply h.update (store.promoted txn)
  case hfind => simpa using find_promoteTxn htxn
  case hold =>
    rw [pointer_promoted, htxn]
    rintro old heq
    obtain rfl := some.inj heq
    intro entry hof
    cases entry with
    | timeline id =>
      change txn.timelineState = .ready id at hof
      rw [promoted, if_neg (by simp [hof])]
      exact hof
    | priority | parked | ttl => simpa [Entry.Of] using hof
  case hready =>
    intro id hid
    rw [timelineId_promoteTxn, pointer_promoted]
    unfold promoted at hid
    split at hid
    next hstate =>
      obtain rfl := TimelineState.ready.inj hid
      exact ⟨by simp [hstate], .inl rfl⟩
    next hstate =>
      rw [if_neg hstate]
      exact ⟨h.fresh _ txn id htxn hid, .inr ⟨txn, htxn, hid⟩⟩
  case hid =>
    rw [timelineId_promoteTxn]
    split <;> omega
  case hholds =>
    intro entry hentry
    cases entry with
    | priority key =>
      rw [Holds, priorityIndex_promoteTxn] at hentry
      rcases mem_of_mem_insert hentry with rfl | hentry
      · exact .inl ⟨pointer_promoted.symm, by simp [Entry.Of]⟩
      · exact .inr hentry
    | timeline id pointer =>
      rw [Holds, timeline_promoteTxn] at hentry
      split at hentry
      next hnew =>
        obtain rfl := some.inj hentry
        exact .inl ⟨pointer_promoted.symm, by rw [promoted, if_pos hnew.1, ← hnew.2]; rfl⟩
      · exact .inr hentry
    | parked pointer =>
      rw [Holds, parkingLotIndex_promoteTxn] at hentry
      exact .inr ((hparking.2 pointer).mp hentry).1
    | ttl =>
      rw [Holds, ttlIndex_promoteTxn] at hentry
      exact .inr hentry
  case hvalid => simpa using hparking.1

theorem Accounted.promoteTxn (h : store.Accounted) (htxn : store.find txn.pointer = some txn) :
    (store.promoteTxn txn).Accounted where
  ttl b pointer found hfound := by
    rw [ttlIndex_promoteTxn]
    rw [find_promoteTxn htxn] at hfound
    split at hfound
    · rw [← some.inj hfound, ttlKey_promoted]
      exact h.ttl b _ txn htxn
    · exact h.ttl b pointer found hfound
  capacity := by
    rw [capacity_promoteTxn]
    exact (congrArg List.length (congrFun ttlIndex_promoteTxn true)).trans_le h.capacity
  capacityPerUser address := by
    rw [capacityPerUser_promoteTxn]
    refine (size_account_le fun number found hfound => ?_).trans (h.capacityPerUser address)
    rw [find_promoteTxn htxn] at hfound
    split at hfound
    next heq => exact ⟨txn, heq ▸ htxn⟩
    · exact ⟨found, hfound⟩

theorem inRange_iff (address) {first stop : Nat} (hlt : first < stop) (pointer) :
    InRange address first stop pointer ↔
      pointer = (address, first) ∨ InRange address (first + 1) stop pointer := by
  simp only [InRange, Prod.ext_iff]
  constructor
  · rintro ⟨haddress, hge, hlt⟩
    by_cases heq : pointer.2 = first
    · exact .inl ⟨haddress, heq⟩
    · exact .inr ⟨haddress, by omega, hlt⟩
  · rintro (⟨haddress, heq⟩ | ⟨haddress, _, hlt⟩)
    · exact ⟨haddress, by omega, by omega⟩
    · exact ⟨haddress, by omega, hlt⟩

theorem Indexed.promotes_promoteTxn (h : store.Indexed) {address} {first stop : Nat}
    (hpointer : txn.pointer = (address, first)) (htxn : store.find txn.pointer = some txn)
    (hrest : Promotes (store.promoteTxn txn) store' address (first + 1) stop) :
    Promotes store store' address first stop := by
  have hrange := inRange_iff address hrest.first_le
  simp only [← hpointer] at hrange
  have hself : ¬ InRange address (first + 1) stop txn.pointer := by
    rw [hpointer]
    rintro ⟨-, hlt, -⟩
    exact not_succ_le_self _ hlt
  constructor
  case first_le => exact le_of_lt hrest.first_le
  case find_kept =>
    intro pointer hp
    rw [hrange, not_or] at hp
    rw [hrest.find_kept pointer hp.2, find_promoteTxn htxn, if_neg (Ne.symm hp.1)]
  case find_promoted =>
    intro pointer hp
    rcases (hrange pointer).mp hp with rfl | hp
    · refine ⟨txn, store.promoted txn, htxn, ?_, ?_⟩
      · rw [hrest.find_kept _ hself, find_promoteTxn htxn, if_pos rfl]
      · by_cases hstate : txn.timelineState = .notReady
        · refine .inr ⟨hstate, store.timelineIndex.timelineId, by rw [promoted, if_pos hstate], ?_⟩
          apply hrest.timeline
          rw [timeline_promoteTxn, if_pos ⟨hstate, rfl⟩]
        · exact .inl ⟨hstate, by rw [promoted, if_neg hstate]⟩
    · obtain ⟨old, new, hold, hnew⟩ := hrest.find_promoted pointer hp
      rw [find_promoteTxn htxn, if_neg (by rintro rfl; exact hself hp)] at hold
      exact ⟨old, new, hold, hnew⟩
  case priority_kept =>
    intro key hp
    rw [hrange, not_or] at hp
    rw [hrest.priority_kept key hp.2, priorityIndex_promoteTxn]
    refine ⟨fun hkey => ?_, mem_insert_of_mem⟩
    rcases mem_of_mem_insert hkey with rfl | hold
    · exact absurd rfl hp.1
    · exact hold
  case priority_promoted =>
    intro pointer hp
    rcases (hrange pointer).mp hp with rfl | hp
    · obtain ⟨key, hkey, hcmp⟩ : ∃ key ∈ store.priorityIndex.insert txn,
          (makeKey txn).cmp key = .eq :=
        exists_mem_insert (cmp_self _)
      have heq : key.pointer = txn.pointer := (pointer_eq_of_cmp hcmp).symm
      rw [← priorityIndex_promoteTxn] at hkey
      exact ⟨key, (hrest.priority_kept key (by rwa [heq])).mpr hkey, heq⟩
    · exact hrest.priority_promoted pointer hp
  case timeline =>
    intro id pointer hid
    apply hrest.timeline
    rw [timeline_promoteTxn, if_neg, hid]
    rintro ⟨-, rfl⟩
    obtain ⟨found, hfound, hstate⟩ := h.held (.timeline _ pointer) hid
    exact absurd (h.fresh pointer found _ hfound hstate) (lt_irrefl _)
  case indexed => exact hrest.indexed
  case accounted => exact fun haccounted => hrest.accounted (haccounted.promoteTxn htxn)
  case capacity => exact hrest.capacity.trans capacity_promoteTxn
  case capacityPerUser => exact hrest.capacityPerUser.trans capacityPerUser_promoteTxn

/-! ## The loop -/

theorem Indexed.promotes_promote (h : store.Indexed) (address) (fuel first : Nat)
    {stop : Nat} (hpromote : store.promote address fuel first = (store', stop)) :
    Promotes store store' address first stop ∧
      (∀ pointer, store'.parkingLotIndex.Parks pointer ↔
        store.parkingLotIndex.Parks pointer ∧ ¬ InRange address first stop pointer) ∧
      (store.find (address, stop) = none ∨ stop = first + fuel) := by
  induction fuel generalizing store first with
  | zero =>
    obtain ⟨rfl, rfl⟩ := Prod.mk.inj hpromote
    exact ⟨h.promotes_none address first, by simp [not_inRange_self], .inr rfl⟩
  | succ _ ih =>
    unfold promote at hpromote
    split at hpromote
    next hnone =>
      obtain ⟨rfl, rfl⟩ := Prod.mk.inj hpromote
      exact ⟨h.promotes_none address first, by simp [not_inRange_self], .inl hnone⟩
    next txn htxn =>
      have hpointer := h.stored _ txn htxn
      rw [← hpointer] at htxn
      obtain ⟨hrest, hparks, hstop⟩ := ih (h.promoteTxn htxn) (first + 1) hpromote
      have hround := h.promotes_promoteTxn hpointer htxn hrest
      refine ⟨hround, fun p => ?_, ?_⟩
      · rw [hparks, parkingLotIndex_promoteTxn, (h.valid.remove txn.pointer).2, hpointer,
          inRange_iff address hrest.first_le, not_or, and_assoc]
      · rcases hstop with hnone | _
        · rw [find_promoteTxn htxn, if_neg] at hnone
          · exact .inl hnone
          · intro heq
            have := hrest.first_le
            have : first = stop := congrArg Prod.snd (hpointer.symm.trans heq)
            omega
        · exact .inr (by omega)

theorem le_size_of_forall_mem {txns : AccountTransactions} {first count}
    (h : ∀ number, first ≤ number → number < first + count → ∃ txn, txns[number]? = some txn) :
    count ≤ txns.size := by
  have hsub : range' first count ⊆ txns.keys := by
    intro number hnumber
    rw [mem_range'_1] at hnumber
    obtain ⟨_, htxn⟩ := h number hnumber.1 hnumber.2
    rw [Std.ExtTreeMap.mem_keys]
    exact mem_iff_isSome_getElem?.mpr (by simp [htxn])
  have hle := (subperm_of_subset nodup_range' hsub).length_le
  simpa [length_keys] using hle

theorem Indexed.promote_spec (h : store.Indexed) (address) (first : Nat)
    {stop : Nat} (hpromote :
      store.promote address ((store.account address).size + 1) first = (store', stop)) :
    store.find (address, stop) = none ∧ Promotes store store' address first stop ∧
      (∀ pointer, store'.parkingLotIndex.Parks pointer ↔
        store.parkingLotIndex.Parks pointer ∧ ¬ InRange address first stop pointer) := by
  obtain ⟨hpromotes, hparks, hnone | _⟩ := h.promotes_promote address _ first hpromote
  · exact ⟨hnone, hpromotes, hparks⟩
  · have hsize : (store.account address).size + 1 ≤ (store.account address).size := by
      apply @le_size_of_forall_mem _ first
      intro number hge _
      obtain ⟨txn, -, htxn, -⟩ := hpromotes.find_promoted (address, number) ⟨rfl, hge, by omega⟩
      exact ⟨txn, htxn⟩
    omega

/-! ## The parking lot -/

theorem valid_parkTxn (store : TransactionStore) (txn : MempoolTransaction)
    (h : store.parkingLotIndex.Valid) : (store.parkTxn txn).parkingLotIndex.Valid :=
  (h.insert txn.pointer).1

theorem foldl_parkTxn (store) (txns : List MempoolTransaction) :
    txns.foldl parkTxn store = { store with
      parkingLotIndex := (txns.foldl parkTxn store).parkingLotIndex } := by
  induction txns generalizing store with
  | nil => rfl
  | cons _ _ ih =>
    rw [foldl_cons, ih]
    rfl

theorem Indexed.park (h : store.Indexed) {txns : List MempoolTransaction}
    (hstored : ∀ txn ∈ txns, store.find txn.pointer = some txn) :
    (txns.foldl parkTxn store).Indexed ∧
      ∀ pointer, (txns.foldl parkTxn store).parkingLotIndex.Parks pointer ↔
        store.parkingLotIndex.Parks pointer ∨ ∃ txn ∈ txns, pointer = txn.pointer := by
  have hvalid : (txns.foldl parkTxn store).parkingLotIndex.Valid :=
    foldlRecOn (motive := fun s : TransactionStore => s.parkingLotIndex.Valid) txns _ h.valid
      fun s hs txn _ => valid_parkTxn s txn hs
  have hparks pointer :=
    foldl_iff_or (P := fun s => s.parkingLotIndex.Parks pointer)
      valid_parkTxn (fun s txn hs => ((hs.insert txn.pointer).2 pointer).trans or_comm) txns h.valid
  refine ⟨?_, hparks⟩
  rw [foldl_parkTxn]
  refine { h with valid := hvalid, held := fun entry hentry => ?_ }
  cases entry with
  | priority | timeline | ttl => exact h.held _ hentry
  | parked pointer =>
    rcases (hparks pointer).mp hentry with hold | ⟨txn, htxn, rfl⟩
    · exact h.held (.parked pointer) hold
    · exact ⟨txn, hstored txn htxn, rfl⟩

/-- What is promoted, where the promotion stops, and what is parked. -/
structure ProcessesReady (store store' : TransactionStore) (address : AccountAddress)
    (first stop : Nat) : Prop extends Promotes store store' address first stop where
  gap : store.find (address, stop) = none
  parks : ∀ pointer, store'.parkingLotIndex.Parks pointer ↔
    (store.parkingLotIndex.Parks pointer ∧ ¬ InRange address first stop pointer) ∨
      pointer.1 = address ∧ stop < pointer.2 ∧
        ∃ txn, store.find pointer = some txn ∧ txn.isReady = false

theorem Indexed.processesReady (h : store.Indexed) (address) (first : Nat) :
    ∃ stop, ProcessesReady store (store.processReadyTransactions address first) address first
      stop := by
  unfold processReadyTransactions
  cases hpromote : store.promote address ((store.account address).size + 1) first with
  | mk store₁ stop =>
    obtain ⟨hgap, hpromotes, hunparked⟩ := h.promote_spec address first hpromote
    have hmem txn :
        txn ∈ (range (store₁.account address) (decide <| stop < ·)).filter
          (fun txn => !txn.isReady) ↔
        store.find txn.pointer = some txn ∧ txn.pointer.1 = address ∧ stop < txn.pointer.2 ∧
          txn.isReady = false := by
      rw [mem_filter, hpromotes.indexed.mem_range, decide_eq_true_eq, Bool.not_eq_true', and_assoc,
        and_assoc]
      refine and_congr_left fun ⟨_, hlt, _⟩ => ?_
      rw [hpromotes.find_kept _ fun hrange => lt_asymm hlt hrange.2.2]
    have hstored : ∀ txn ∈ (range (store₁.account address) (decide <| stop < ·)).filter
        (fun txn => !txn.isReady), store₁.find txn.pointer = some txn := fun txn htxn =>
      (hpromotes.indexed.mem_range.mp (mem_filter.mp htxn).1).1
    generalize hfollowing : (range (store₁.account address) (decide <| stop < ·)).filter
      (fun txn => !txn.isReady) = following at hmem hstored
    obtain ⟨hindexed, hparks⟩ := hpromotes.indexed.park hstored
    refine ⟨stop, ?_⟩
    simp only [hpromote, hfollowing]
    rw [foldl_parkTxn] at hindexed ⊢
    refine
      { hpromotes with
        indexed := hindexed
        accounted := fun haccounted => { hpromotes.accounted haccounted with }
        gap := hgap
        parks := fun pointer => ?_ }
    refine (hparks pointer).trans (or_congr (hunparked pointer) ?_)
    simp only [hmem]
    constructor
    · rintro ⟨txn, ⟨hfind, haddress, hlt, hready⟩, rfl⟩
      exact ⟨haddress, hlt, txn, hfind, hready⟩
    · rintro ⟨haddress, hlt, txn, hfind, hready⟩
      obtain rfl := h.stored pointer txn hfind
      exact ⟨txn, ⟨hfind, haddress, hlt, hready⟩, rfl⟩

end Loki.Diem.CoreMempool.TransactionStore
