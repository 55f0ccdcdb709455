import Loki.Diem.CoreMempool.Store
import Loki.Foundation.Run

/-!
# The indexes agree with the store

What an index holds leads to a stored transaction, in every store that the operations reach.  Each
operation that takes transactions out is described by `Drops`, from which the agreement follows
once for all of them.
-/

namespace Loki.Diem.CoreMempool.TransactionStore

open Loki.Foundation TTLIndex Std.ExtTreeMap Option List Nat OrderedQueueKey TimelineIndex

variable {store store' store'' : TransactionStore}

section Find

variable (store : TransactionStore) (address : AccountAddress) (txns : AccountTransactions)

@[simp] theorem account_setAccount (other : AccountAddress) :
    (store.setAccount address txns).account other =
      if address = other then txns else store.account other := by
  simp only [account, setAccount, getElem?_insert]
  split <;> rfl

@[simp] theorem find_setAccount (pointer) :
    (store.setAccount address txns).find pointer =
      if address = pointer.1 then txns[pointer.2]? else store.find pointer := by
  simp only [find, account_setAccount]
  split <;> rfl

theorem find_erase (pointer other : TxnPointer) :
    (store.erase pointer).find other = if pointer = other then none else store.find other := by
  rw [erase, find_setAccount, getElem?_erase]
  by_cases ha : pointer.1 = other.1
  · by_cases hn : pointer.2 = other.2
    · simp [Prod.ext ha hn]
    · simp [ha, hn, Prod.ext_iff, find]
  · simp [ha, Prod.ext_iff]

end Find

theorem size_account_le {address : AccountAddress}
    (h : ∀ number txn, store'.find (address, number) = some txn →
      ∃ old, store.find (address, number) = some old) :
    (store'.account address).size ≤ (store.account address).size := by
  have hsub : (store'.account address).keys ⊆ (store.account address).keys := by
    intro number hnumber
    rw [Std.ExtTreeMap.mem_keys, mem_iff_isSome_getElem?, isSome_iff_exists] at hnumber ⊢
    obtain ⟨txn, htxn⟩ := hnumber
    exact h number txn htxn
  simpa [length_keys] using (subperm_of_subset nodup_keys hsub).length_le

/-- The index that `gc` reads. -/
def ttlIndex (store : TransactionStore) (bySystemTtl : Bool) : TTLIndex :=
  if bySystemTtl then store.systemTtlIndex else store.expirationTimeIndex

def ttlKey (bySystemTtl : Bool) (txn : MempoolTransaction) : TTLOrderingKey :=
  if bySystemTtl then txn.systemTtlKey else txn.expirationTimeKey

theorem pointer_ttlKey (b) (txn : MempoolTransaction) : (ttlKey b txn).pointer = txn.pointer := by
  cases b <;> rfl

/-- An entry of one of the indexes. -/
inductive Entry where
  | priority (key : OrderedQueueKey)
  | timeline (id : Nat) (pointer : TxnPointer)
  | parked (pointer : TxnPointer)
  | ttl (bySystemTtl : Bool) (key : TTLOrderingKey)

namespace Entry

def pointer : Entry → TxnPointer
  | priority key => key.pointer
  | timeline _ pointer => pointer
  | parked pointer => pointer
  | ttl _ key => key.pointer

def Of (txn : MempoolTransaction) : Entry → Prop
  | priority key => (PriorityIndex.makeKey txn).cmp key = .eq
  | timeline id _ => txn.timelineState = .ready id
  | parked pointer => pointer = txn.pointer
  | ttl b key => key = ttlKey b txn

/-- Whether an entry is there after the transactions of `F` are parked, when it was before. -/
def Demoted (F : TxnPointer → Prop) (held : Prop) : Entry → Prop
  | priority key => held ∧ ¬ F key.pointer
  | timeline _ pointer => held ∧ ¬ F pointer
  | parked pointer => held ∨ F pointer
  | ttl .. => held

theorem demoted_false {held : Prop} (entry : Entry) :
    entry.Demoted (fun _ => False) held ↔ held := by
  cases entry <;> simp [Demoted]

end Entry

def Holds (store : TransactionStore) : Entry → Prop
  | .priority key => key ∈ store.priorityIndex
  | .timeline id pointer => store.timelineIndex.timeline[id]? = some pointer
  | .parked pointer => store.parkingLotIndex.Parks pointer
  | .ttl b key => key ∈ store.ttlIndex b

structure Indexed (store : TransactionStore) : Prop where
  stored : ∀ pointer txn, store.find pointer = some txn → txn.pointer = pointer
  held : ∀ entry, store.Holds entry → ∃ txn, store.find entry.pointer = some txn ∧ entry.Of txn
  fresh : ∀ pointer txn id, store.find pointer = some txn → txn.timelineState = .ready id →
    id < store.timelineIndex.timelineId
  unique : ∀ pointer other txn txn' id, store.find pointer = some txn →
    store.find other = some txn' → txn.timelineState = .ready id →
    txn'.timelineState = .ready id → pointer = other
  valid : store.parkingLotIndex.Valid

theorem Indexed.mem_range (h : store.Indexed) {address p txn} :
    txn ∈ range (store.account address) p ↔
      store.find txn.pointer = some txn ∧ txn.pointer.1 = address ∧ p txn.pointer.2 = true := by
  simp only [range, List.mem_map, Prod.exists, exists_eq_right,
    mem_toList_iff_getElem?_eq_some, getElem?_filter, filter_eq_some_iff]
  constructor
  · rintro ⟨number, hfind, hp⟩
    rw [h.stored (address, number) txn hfind]
    exact ⟨hfind, rfl, hp⟩
  · rintro ⟨hfind, rfl, hp⟩
    exact ⟨txn.pointer.2, hfind, hp⟩

theorem Indexed.priority (h : store.Indexed) {key} (hkey : key ∈ store.priorityIndex) :
    ∃ txn, store.find key.pointer = some txn :=
  (h.held (.priority key) hkey).imp fun _ => And.left

theorem Indexed.parked (h : store.Indexed) {pointer}
    (hparks : store.parkingLotIndex.Parks pointer) : ∃ txn, store.find pointer = some txn :=
  (h.held (.parked pointer) hparks).imp fun _ => And.left

/-- Of the stored transactions, only the one an entry leads to has it. -/
theorem Indexed.of_iff (h : store.Indexed) (entry) {txn} (htxn : store.find txn.pointer = some txn)
    (hentry : store.Holds entry) : entry.Of txn ↔ entry.pointer = txn.pointer := by
  obtain ⟨found, hfound, hof⟩ := h.held entry hentry
  constructor
  · intro hof'
    cases entry with
    | priority => exact (pointer_eq_of_cmp hof').symm
    | timeline id pointer => exact h.unique pointer txn.pointer found txn id hfound htxn hof hof'
    | parked => exact hof'
    | ttl b => exact (congrArg _ hof').trans (pointer_ttlKey b txn)
  · intro heq
    rw [heq, htxn] at hfound
    rwa [Option.some.inj hfound]

/-- Every stored transaction can expire, and the capacities are kept. -/
structure Accounted (store : TransactionStore) : Prop where
  ttl : ∀ b pointer txn, store.find pointer = some txn → ttlKey b txn ∈ store.ttlIndex b
  capacity : store.systemTtlIndex.length ≤ store.capacity
  capacityPerUser : ∀ address, (store.account address).size ≤ store.capacityPerUser

/-- The transactions of `D` leave, and those of `F` are parked. -/
structure Drops (store store' : TransactionStore) (D F : TxnPointer → Prop) : Prop where
  find_eq_some : ∀ {pointer txn}, store'.find pointer = some txn ↔
    store.find pointer = some txn ∧ ¬ D pointer
  holds : ∀ entry, store'.Holds entry ↔ entry.Demoted F (store.Holds entry) ∧ ¬ D entry.pointer
  timelineId : store'.timelineIndex.timelineId = store.timelineIndex.timelineId
  valid : store'.parkingLotIndex.Valid
  parkable : ∀ pointer, F pointer → ∃ txn, store.find pointer = some txn
  length_le : store'.systemTtlIndex.length ≤ store.systemTtlIndex.length
  capacity : store'.capacity = store.capacity
  capacityPerUser : store'.capacityPerUser = store.capacityPerUser

section Drops

variable {D F D' F' : TxnPointer → Prop}

section

variable (h : Drops store store' D F)

include h

theorem Drops.find_kept (pointer) (hD : ¬ D pointer) : store'.find pointer = store.find pointer :=
  Option.ext fun _ => h.find_eq_some.trans (and_iff_left hD)

theorem Drops.find_eq_none {pointer}
    (hnone : D pointer ∨ store.find pointer = none) : store'.find pointer = none := by
  refine eq_none_iff_forall_ne_some.mpr fun txn htxn => ?_
  obtain ⟨hold, hD⟩ := h.find_eq_some.mp htxn
  rw [hnone.resolve_left hD] at hold
  cases hold

theorem Drops.size_le (address) : (store'.account address).size ≤ (store.account address).size :=
  size_account_le fun _ txn htxn => ⟨txn, (h.find_eq_some.mp htxn).1⟩

theorem Drops.trans (h' : Drops store' store'' D' F') :
    Drops store store'' (fun p => D p ∨ D' p) (fun p => F p ∨ F' p) where
  find_eq_some {_ _} := by rw [h'.find_eq_some, h.find_eq_some, not_or, and_assoc]
  holds entry := by
    have hF' (hF : F' entry.pointer) : ¬ D entry.pointer := by
      obtain ⟨txn, htxn⟩ := h'.parkable _ hF
      exact (h.find_eq_some.mp htxn).2
    rw [h'.holds, h.holds]
    cases entry <;> simp only [Entry.Demoted, Entry.pointer] at hF' ⊢ <;> tauto
  timelineId := h'.timelineId.trans h.timelineId
  valid := h'.valid
  parkable pointer hF := by
    rcases hF with hF | hF
    · exact h.parkable pointer hF
    · obtain ⟨txn, htxn⟩ := h'.parkable pointer hF
      exact ⟨txn, (h.find_eq_some.mp htxn).1⟩
  length_le := h'.length_le.trans h.length_le
  capacity := h'.capacity.trans h.capacity
  capacityPerUser := h'.capacityPerUser.trans h.capacityPerUser

end

theorem Indexed.drops (hstore : store.Indexed) (h : Drops store store' D F) : store'.Indexed where
  stored pointer txn htxn := hstore.stored pointer txn (h.find_eq_some.mp htxn).1
  held entry hentry := by
    obtain ⟨hdemoted, hD⟩ := (h.holds entry).mp hentry
    rw [h.find_kept _ hD]
    cases entry with
    | priority | timeline => exact hstore.held _ hdemoted.1
    | ttl => exact hstore.held _ hdemoted
    | parked pointer =>
      rcases hdemoted with hparks | hF
      · exact hstore.held (.parked pointer) hparks
      · obtain ⟨txn, htxn⟩ := h.parkable pointer hF
        exact ⟨txn, htxn, (hstore.stored pointer txn htxn).symm⟩
  fresh pointer txn id htxn hid := by
    rw [h.timelineId]
    exact hstore.fresh pointer txn id (h.find_eq_some.mp htxn).1 hid
  unique pointer other txn txn' id htxn htxn' :=
    hstore.unique pointer other txn txn' id (h.find_eq_some.mp htxn).1 (h.find_eq_some.mp htxn').1
  valid := h.valid

theorem Accounted.drops (hindexed : store.Indexed) (hstore : store.Accounted)
    (h : Drops store store' D F) : store'.Accounted where
  ttl b pointer txn htxn := by
    obtain ⟨hold, hD⟩ := h.find_eq_some.mp htxn
    refine (h.holds (.ttl b _)).mpr ⟨hstore.ttl b pointer txn hold, ?_⟩
    rwa [Entry.pointer, pointer_ttlKey, hindexed.stored pointer txn hold]
  capacity := by
    rw [h.capacity]
    exact h.length_le.trans hstore.capacity
  capacityPerUser address := by
    rw [h.capacityPerUser]
    exact (h.size_le address).trans (hstore.capacityPerUser address)

end Drops

section Removal

variable {D : TxnPointer → Prop} {txns : List MempoolTransaction}

section

variable (store) (txn : MempoolTransaction)

@[simp] theorem transactions_indexRemove :
    (store.indexRemove txn).transactions = store.transactions := rfl

@[simp] theorem capacity_indexRemove :
    (store.indexRemove txn).capacity = store.capacity := rfl

@[simp] theorem capacityPerUser_indexRemove :
    (store.indexRemove txn).capacityPerUser = store.capacityPerUser := rfl

theorem valid_indexRemove (h : store.parkingLotIndex.Valid) :
    (store.indexRemove txn).parkingLotIndex.Valid :=
  (h.remove txn.pointer).1

theorem holds_indexRemove (h : store.parkingLotIndex.Valid) (entry : Entry) :
    (store.indexRemove txn).Holds entry ↔ store.Holds entry ∧ ¬ entry.Of txn := by
  cases entry with
  | priority => exact PriorityIndex.mem_remove
  | timeline => exact getElem?_remove
  | parked pointer => exact (h.remove txn.pointer).2 pointer
  | ttl b => cases b <;> exact mem_remove

end

section

variable (h : store.Indexed)

include h

theorem drops_foldl_indexRemove {transactions}
    (htxns : ∀ txn, txn ∈ txns ↔ store.find txn.pointer = some txn ∧ D txn.pointer)
    (hfind : ∀ pointer txn, { store with transactions := transactions }.find pointer = some txn ↔
      store.find pointer = some txn ∧ ¬ D pointer) :
    Drops store (txns.foldl indexRemove { store with transactions := transactions }) D
      fun _ => False := by
  have hvalid : { store with transactions := transactions }.parkingLotIndex.Valid := h.valid
  have htransactions : (txns.foldl indexRemove { store with transactions := transactions }
      ).transactions = transactions :=
    foldl_eq transactions_indexRemove txns
  refine
    { find_eq_some := ?_
      holds := fun entry => ?_
      timelineId := foldl_eq (g := fun s : TransactionStore => s.timelineIndex.timelineId)
        (fun s txn => s.timelineIndex.timelineId_remove txn) txns
      valid := foldlRecOn (motive := fun s : TransactionStore => s.parkingLotIndex.Valid) txns _
        hvalid fun s hs txn _ => s.valid_indexRemove txn hs
      parkable := fun _ hF => hF.elim
      length_le := foldl_le (g := fun s : TransactionStore => s.systemTtlIndex.length)
        (fun s txn => BTreeSet.length_remove_le _ _) txns
      capacity := foldl_eq capacity_indexRemove txns
      capacityPerUser := foldl_eq capacityPerUser_indexRemove txns }
  · simp only [find, account, htransactions]
    exact hfind _ _
  · have hfold := foldl_iff_and (P := fun s => s.Holds entry) valid_indexRemove
      (fun s txn hs => s.holds_indexRemove txn hs entry) txns hvalid
    rw [hfold, entry.demoted_false]
    refine and_congr_right fun hentry => ⟨fun hall hDp => ?_, fun hDp txn htxn hof => hDp ?_⟩
    · obtain ⟨txn, hfound, hof⟩ := h.held entry hentry
      have hpointer := h.stored _ txn hfound
      exact hall txn ((htxns txn).mpr (hpointer ▸ ⟨hfound, hDp⟩)) hof
    · obtain ⟨hfound, hDtxn⟩ := (htxns txn).mp htxn
      rwa [(h.of_iff entry hfound hentry).mp hof]

theorem Indexed.drops_self (hD : ∀ pointer, D pointer → store.find pointer = none) :
    Drops store store D fun _ => False where
  find_eq_some := by
    refine ⟨fun htxn => ⟨htxn, fun hDp => ?_⟩, And.left⟩
    simp [hD _ hDp] at htxn
  holds entry := by
    rw [entry.demoted_false]
    refine ⟨fun hentry => ⟨hentry, fun hDp => ?_⟩, And.left⟩
    obtain ⟨txn, htxn, -⟩ := h.held entry hentry
    simp [hD _ hDp] at htxn
  timelineId := rfl
  valid := h.valid
  parkable _ hF := hF.elim
  length_le := le_refl _
  capacity := rfl
  capacityPerUser := rfl

theorem Indexed.drops_removeAt (pointer) :
    Drops store (store.removeAt pointer) (· = pointer) fun _ => False := by
  unfold removeAt
  cases hfind : store.find pointer with
  | none =>
    apply h.drops_self
    rintro other rfl
    exact hfind
  | some txn =>
    have hpointer := h.stored pointer txn hfind
    change Drops store ([txn].foldl indexRemove (store.erase pointer)) _ _
    apply drops_foldl_indexRemove h
    case htxns =>
      intro other
      rw [mem_singleton]
      constructor
      · rintro rfl
        exact ⟨hpointer ▸ hfind, hpointer⟩
      · rintro ⟨hfound, rfl⟩
        exact some.inj (hfound.symm.trans hfind)
    case hfind =>
      intro other found
      refine (Eq.congr_left (find_erase store pointer other)).trans ?_
      split
      next heq => simp [heq]
      next hne => simp [Ne.symm hne]

theorem Indexed.drops_clean (address) (sequenceNumber : Nat) :
    Drops store (store.cleanCommittedTransactions address sequenceNumber)
      (fun pointer => pointer.1 = address ∧ pointer.2 < sequenceNumber) fun _ => False := by
  apply drops_foldl_indexRemove h
  case htxns => simp [h.mem_range]
  case hfind =>
    intro pointer txn
    refine (Eq.congr_left (find_setAccount store address _ pointer)).trans ?_
    split
    next heq =>
      rw [getElem?_filter, filter_eq_some_iff, heq]
      simp [find]
    next hne => simp [Ne.symm hne]

theorem Indexed.drops_reject (account : AccountAddress) :
    Drops store (store.rejectTransaction account) (fun pointer => pointer.1 = account)
      fun _ => False := by
  have haccount other :
      ({ store with transactions := store.transactions.erase account }).account other =
        if account = other then ∅ else store.account other := by
    simp only [TransactionStore.account, getElem?_erase]
    split <;> rfl
  apply drops_foldl_indexRemove h
  case htxns => simp [h.mem_range]
  case hfind =>
    intro pointer txn
    rw [find, haccount]
    split
    next heq => simp [heq]
    next hne => simp [find, Ne.symm hne]

end

/-! ## Expiration -/

theorem Indexed.drops_demoteTxn (h : store.Indexed) {txn : MempoolTransaction}
    (htxn : store.find txn.pointer = some txn) :
    Drops store (store.demoteTxn txn) (fun _ => False) (· = txn.pointer) where
  find_eq_some := (and_iff_left not_false).symm
  holds entry := by
    rw [not_false_eq_true, and_true]
    cases entry with
    | priority =>
      exact PriorityIndex.mem_remove.trans (and_congr_right fun hkey =>
        not_congr (h.of_iff (.priority _) htxn hkey))
    | timeline =>
      exact getElem?_remove.trans (and_congr_right fun hid =>
        not_congr (h.of_iff (.timeline _ _) htxn hid))
    | parked pointer => exact ((h.valid.insert txn.pointer).2 pointer).trans or_comm
    | ttl => exact Iff.rfl
  timelineId := store.timelineIndex.timelineId_remove txn
  valid := (h.valid.insert txn.pointer).1
  parkable := by
    rintro _ rfl
    exact ⟨txn, htxn⟩
  length_le := le_refl _
  capacity := rfl
  capacityPerUser := rfl

theorem Indexed.drops_demote (h : store.Indexed)
    (hstored : ∀ txn ∈ txns, store.find txn.pointer = some txn) :
    Drops store (txns.foldl demoteTxn store) (fun _ => False)
      fun pointer => ∃ txn ∈ txns, pointer = txn.pointer := by
  induction txns generalizing store with
  | nil => simpa using h.drops_self fun _ hD => hD.elim
  | cons txn txns ih =>
    obtain ⟨htxn, htxns⟩ := forall_mem_cons.mp hstored
    have hdrops := h.drops_demoteTxn htxn
    have hrest := ih (h.drops hdrops) htxns
    simpa using hdrops.trans hrest

theorem Indexed.drops_gcKey (h : store.Indexed) (key)
    (next : Option TTLOrderingKey) :
    ∃ F,
      (∀ pointer, F pointer → pointer.1 = key.address ∧ key.sequenceNumber < pointer.2) ∧
      Drops store (store.gcKey key next) (· = key.pointer) F := by
  unfold gcKey
  extract_lets inRange demoted
  have hdemote := h.drops_demote fun txn (htxn : txn ∈ range (store.account key.address) inRange) =>
    (h.mem_range.mp htxn).1
  have hremove := (h.drops hdemote).drops_removeAt key.pointer
  refine ⟨_, ?_, by simpa using hdemote.trans hremove⟩
  rintro _ ⟨txn, htxn, rfl⟩
  obtain ⟨-, haddress, hnumber⟩ := h.mem_range.mp htxn
  exact ⟨haddress, of_decide_eq_true (Bool.and_eq_true_iff.mp hnumber).1⟩

theorem Indexed.drops_gcLoop (h : store.Indexed) (keys : List TTLOrderingKey) :
    ∃ F,
      (∀ pointer, F pointer →
        ∃ key ∈ keys, pointer.1 = key.address ∧ key.sequenceNumber < pointer.2) ∧
      Drops store (store.gcLoop keys) (fun pointer => ∃ key ∈ keys, pointer = key.pointer) F := by
  induction keys generalizing store with
  | nil => exact ⟨fun _ => False, fun _ hF => hF.elim, h.drops_self (by simp)⟩
  | cons key keys ih =>
    obtain ⟨F, hF, hdrops⟩ := h.drops_gcKey key keys.head?
    obtain ⟨F', hF', hdrops'⟩ := ih (h.drops hdrops)
    refine ⟨fun pointer => F pointer ∨ F' pointer, ?_, ?_⟩
    · rintro pointer (hp | hp)
      · exact ⟨key, by simp, hF pointer hp⟩
      · obtain ⟨other, hother, hfollows⟩ := hF' pointer hp
        exact ⟨other, by simp [hother], hfollows⟩
    · have htrans := hdrops.trans hdrops'
      simp only [mem_cons, exists_eq_or_imp]
      exact htrans

end Removal

section

variable (store : TransactionStore) (now : Nat)

def Expires (bySystemTtl : Bool) (pointer : TxnPointer) : Prop :=
  ∃ key ∈ store.ttlIndex bySystemTtl, key.expirationTime < now ∧ pointer = key.pointer

/-- The collection takes the expired keys out of its index before it goes through them. -/
def dropExpired : Bool → TransactionStore
  | true => { store with systemTtlIndex := (store.systemTtlIndex.gc now).1 }
  | false => { store with expirationTimeIndex := (store.expirationTimeIndex.gc now).1 }

theorem holds_dropExpired (bySystemTtl : Bool)
    (entry : Entry) : (store.dropExpired now bySystemTtl).Holds entry ↔
      store.Holds entry ∧ ∀ key, entry = .ttl bySystemTtl key → ¬ key.expirationTime < now := by
  have hkept {index : TTLIndex} {key} :
      key ∈ (index.gc now).1 ↔ key ∈ index ∧ ¬ key.expirationTime < now := by
    rw [TTLIndex.gc, mem_filter, Bool.not_eq_true', ← Bool.not_eq_true, TTLIndex.isExpired_iff]
  cases bySystemTtl <;> rcases entry with _ | _ | _ | ⟨_ | _, key⟩ <;>
    simp [Holds, dropExpired, ttlIndex, hkept]

end

theorem Indexed.drops_gc (h : store.Indexed) (now : Nat) (bySystemTtl : Bool) :
    ∃ F,
      (∀ pointer, F pointer →
        ∃ number, number < pointer.2 ∧ store.Expires now bySystemTtl (pointer.1, number)) ∧
      Drops store (store.gc now bySystemTtl) (store.Expires now bySystemTtl) F := by
  have hkeys {key} : key ∈ sortKeys ((store.ttlIndex bySystemTtl).gc now).2 ↔
      key ∈ store.ttlIndex bySystemTtl ∧ key.expirationTime < now := by
    rw [sortKeys, mem_insertionSort, TTLIndex.gc, mem_filter, TTLIndex.isExpired_iff]
  have hD : (fun pointer => ∃ key ∈ sortKeys ((store.ttlIndex bySystemTtl).gc now).2,
      pointer = key.pointer) = store.Expires now bySystemTtl := by
    funext pointer
    simp [hkeys, and_assoc, Expires]
  have hheld entry (hentry : (store.dropExpired now bySystemTtl).Holds entry) :=
    h.held entry ((store.holds_dropExpired now bySystemTtl entry).mp hentry).1
  have h₀ : (store.dropExpired now bySystemTtl).Indexed := by
    cases bySystemTtl <;> exact { h with held := hheld }
  obtain ⟨F, hF, hdrops⟩ := h₀.drops_gcLoop (sortKeys ((store.ttlIndex bySystemTtl).gc now).2)
  replace hdrops := hD ▸ hdrops
  refine ⟨F, fun pointer hp => ?_, ?_⟩
  · obtain ⟨key, hkey, haddress, hlt⟩ := hF pointer hp
    obtain ⟨hmem, hexpired⟩ := hkeys.mp hkey
    exact ⟨key.sequenceNumber, hlt, key, hmem, hexpired, Prod.ext haddress rfl⟩
  · -- the keys taken out first are those of transactions that expire
    have hholds entry := (hdrops.holds entry).trans <| and_congr_left fun hnot => by
      rw [(store.holds_dropExpired now bySystemTtl entry).trans <| and_iff_left_of_imp <| by
        rintro hentry key rfl hexpired
        exact hnot ⟨key, hentry, hexpired, rfl⟩]
    cases bySystemTtl with
    | true =>
      exact { hdrops with
        holds := hholds
        length_le := hdrops.length_le.trans (length_filter_le _ _) }
    | false => exact { hdrops with holds := hholds }

/-! ## Insertion -/

theorem find_setAccount_insert (store : TransactionStore) (pointer other : TxnPointer)
    (txn : MempoolTransaction) :
    (store.setAccount pointer.1 ((store.account pointer.1).insert pointer.2 txn)).find other =
      if pointer = other then some txn else store.find other := by
  by_cases ha : pointer.1 = other.1
  · by_cases hn : pointer.2 = other.2
    · simp [Prod.ext ha hn]
    · simp [ha, hn, Prod.ext_iff, find]
  · simp [ha, Prod.ext_iff]

theorem find_put (store : TransactionStore) (txn : MempoolTransaction) (pointer) :
    (store.put txn).find pointer =
      if txn.pointer = pointer then some txn else store.find pointer := by
  rw [← find_setAccount_insert store txn.pointer pointer txn]
  rfl

section Put

variable {txn : MempoolTransaction}

/-- The transaction of one pointer is new, or it takes the place of one with the same keys. -/
theorem Indexed.update (h : store.Indexed) (txn : MempoolTransaction)
    (hfind : ∀ pointer, store'.find pointer =
      if txn.pointer = pointer then some txn else store.find pointer)
    (hold : ∀ old, store.find txn.pointer = some old → ∀ entry : Entry, entry.Of old → entry.Of txn)
    (hready : ∀ id, txn.timelineState = .ready id → id < store'.timelineIndex.timelineId ∧
      (id = store.timelineIndex.timelineId ∨
        ∃ old, store.find txn.pointer = some old ∧ old.timelineState = .ready id))
    (hid : store.timelineIndex.timelineId ≤ store'.timelineIndex.timelineId)
    (hholds : ∀ entry, store'.Holds entry →
      entry.pointer = txn.pointer ∧ entry.Of txn ∨ store.Holds entry)
    (hvalid : store'.parkingLotIndex.Valid) : store'.Indexed := by
  have hself : store'.find txn.pointer = some txn := by rw [hfind, if_pos rfl]
  have hcases {pointer found} (hstored : store'.find pointer = some found) :
      pointer = txn.pointer ∧ found = txn ∨ store.find pointer = some found := by
    rw [hfind] at hstored
    split at hstored
    next heq => exact .inl ⟨heq.symm, (some.inj hstored).symm⟩
    · exact .inr hstored
  -- an identifier is the one just given out, or an older one
  have hstate {pointer found id} (hstored : store'.find pointer = some found)
      (hid : found.timelineState = .ready id) :
      pointer = txn.pointer ∧ id = store.timelineIndex.timelineId ∨
        ∃ old, store.find pointer = some old ∧ old.timelineState = .ready id := by
    rcases hcases hstored with ⟨rfl, rfl⟩ | hstored
    · exact (hready id hid).2.imp_left fun heq => ⟨rfl, heq⟩
    · exact .inr ⟨found, hstored, hid⟩
  exact
    { stored := by
        intro pointer found hstored
        rcases hcases hstored with ⟨rfl, rfl⟩ | hstored
        · rfl
        · exact h.stored pointer found hstored
      held := by
        intro entry hentry
        rcases hholds entry hentry with ⟨heq, hof⟩ | hentry
        · exact ⟨txn, by rw [heq, hself], hof⟩
        · obtain ⟨found, hstored, hof⟩ := h.held entry hentry
          by_cases heq : txn.pointer = entry.pointer
          · rw [← heq] at hstored ⊢
            exact ⟨txn, hself, hold found hstored entry hof⟩
          · exact ⟨found, by rw [hfind, if_neg heq, hstored], hof⟩
      fresh := by
        intro pointer found id hstored hstate'
        rcases hcases hstored with ⟨-, rfl⟩ | hstored
        · exact (hready id hstate').1
        · exact (h.fresh pointer found id hstored hstate').trans_le hid
      unique := by
        intro pointer other found found' id hfound hfound' hid hid'
        rcases hstate hfound hid with ⟨rfl, rfl⟩ | ⟨old, hold, hid⟩ <;>
          rcases hstate hfound' hid' with ⟨rfl, heq⟩ | ⟨old', hold', hid'⟩
        · rfl
        · exact absurd (h.fresh _ _ _ hold' hid') (lt_irrefl _)
        · exact absurd (h.fresh _ _ _ hold hid) (heq ▸ lt_irrefl _)
        · exact h.unique pointer other old old' id hold hold' hid hid'
      valid := hvalid }

theorem mem_ttlIndex_put (b key) :
    key ∈ (store.put txn).ttlIndex b ↔ key = ttlKey b txn ∨ key ∈ store.ttlIndex b := by
  cases b <;> exact mem_insert

theorem Indexed.put (h : store.Indexed) (hnew : store.find txn.pointer = none)
    (hstate : txn.isReady = false) : (store.put txn).Indexed := by
  refine h.update txn (find_put store txn) (by simp [hnew]) (fun id hid => ?_) (le_refl _)
    (fun entry hentry => ?_) h.valid
  · simp [MempoolTransaction.isReady, hid] at hstate
  · cases entry with
    | priority | timeline | parked => exact .inr hentry
    | ttl b key =>
      refine ((mem_ttlIndex_put b key).mp hentry).imp_left fun heq => ⟨?_, heq⟩
      exact (congrArg _ heq).trans (pointer_ttlKey b txn)

theorem Accounted.put (h : store.Accounted)
    (hcapacity : store.systemTtlIndex.length < store.capacity)
    (hsize : (store.account txn.getSender).size < store.capacityPerUser) :
    (store.put txn).Accounted where
  ttl b pointer found hfound := by
    rw [find_put] at hfound
    refine (mem_ttlIndex_put b _).mpr ?_
    split at hfound
    · exact .inl (by rw [← some.inj hfound])
    · exact .inr (h.ttl b pointer found hfound)
  capacity := (BTreeSet.length_insert_le _ _).trans hcapacity
  capacityPerUser address := by
    change ((store.setAccount _ _).account address).size ≤ store.capacityPerUser
    rw [account_setAccount]
    split
    · exact size_insert_le.trans hsize
    · exact h.capacityPerUser address

end Put

end Loki.Diem.CoreMempool.TransactionStore
