import Loki.Diem.Types
import Loki.Foundation.BTreeSet
import Mathlib.Data.List.Nodup

/-!
# The indexes of the mempool

`core_mempool/transaction.rs` and `core_mempool/index.rs`.  Each index holds references to the
transactions of the store.  Sequence numbers are those below the last `u64`, so that the next one
always exists.
-/

namespace Loki.Diem.CoreMempool

open Loki.Foundation List Option BTreeSet Ordering

section BTreeMap

variable {K V : Type} [Ord K] [Std.TransOrd K] [Std.LawfulEqOrd K] [DecidableEq K]

variable (m : BTreeMap K V)

@[simp] theorem getElem?_insert (k a : K) (v : V) :
    (m.insert k v)[a]? = if k = a then some v else m[a]? := by
  rw [Std.ExtTreeMap.getElem?_insert]
  simp

@[simp] theorem getElem?_erase (k a : K) : (m.erase k)[a]? = if k = a then none else m[a]? := by
  rw [Std.ExtTreeMap.getElem?_erase]
  simp

omit [DecidableEq K] in
@[simp] theorem getElem?_filter (f : K → V → Bool) (k : K) :
    (m.filter f)[k]? = m[k]?.filter (f k) :=
  Std.ExtTreeMap.getElem?_filter'

end BTreeMap

inductive GovernanceRole where
  | diemRoot
  | treasuryCompliance
  | validator
  | validatorOperator
  | designatedDealer
  | nonGovernanceRole
  deriving DecidableEq, Repr

def GovernanceRole.priority : GovernanceRole → Nat
  | .diemRoot => 3
  | .treasuryCompliance => 2
  | .validator | .validatorOperator | .designatedDealer => 1
  | .nonGovernanceRole => 0

inductive TimelineState where
  | ready (timelineId : Nat)
  | notReady
  | nonQualified
  deriving DecidableEq, Repr

/-- `rest` stands for the fields that are only compared. -/
structure SignedTransaction where
  sender : AccountAddress
  sequenceNumber : Nat
  payload : Nat := 0
  maxGasAmount : Nat := 0
  gasUnitPrice : Nat := 0
  expirationTimestampSecs : Nat := 0
  rest : Nat := 0
  deriving DecidableEq, Repr

structure MempoolTransaction where
  txn : SignedTransaction
  expirationTime : Nat
  rankingScore : Nat
  timelineState : TimelineState
  governanceRole : GovernanceRole
  deriving DecidableEq, Repr

abbrev TxnPointer := AccountAddress × Nat

namespace MempoolTransaction

variable (txn : MempoolTransaction)

def getSender : AccountAddress := txn.txn.sender

def getSequenceNumber : Nat := txn.txn.sequenceNumber

def getGasPrice : Nat := txn.txn.gasUnitPrice

def pointer : TxnPointer := (txn.getSender, txn.getSequenceNumber)

end MempoolTransaction

/-! ## Priority -/

structure OrderedQueueKey where
  gasRankingScore : Nat
  expirationTime : Nat
  address : AccountAddress
  sequenceNumber : Nat
  governanceRole : GovernanceRole
  deriving DecidableEq, Repr

namespace OrderedQueueKey

def cmp (key other : OrderedQueueKey) : Ordering :=
  (compare key.governanceRole.priority other.governanceRole.priority).then <|
    (compare key.gasRankingScore other.gasRankingScore).then <|
    (compare key.expirationTime other.expirationTime).swap.then <|
    (compare key.address other.address).then
      (compare key.sequenceNumber other.sequenceNumber).swap

def pointer (key : OrderedQueueKey) : TxnPointer := (key.address, key.sequenceNumber)

@[simp] theorem cmp_self (key : OrderedQueueKey) : key.cmp key = .eq := by simp [cmp]

variable {key other : OrderedQueueKey}

theorem pointer_eq_of_cmp (h : key.cmp other = .eq) : key.pointer = other.pointer := by
  simp only [cmp, then_eq_eq, swap_eq_eq, Nat.compare_eq_eq] at h
  simp [pointer, h.2.2.2.1, h.2.2.2.2]

end OrderedQueueKey

abbrev PriorityIndex := List OrderedQueueKey

namespace PriorityIndex

def makeKey (txn : MempoolTransaction) : OrderedQueueKey where
  gasRankingScore := txn.rankingScore
  expirationTime := txn.expirationTime
  address := txn.getSender
  sequenceNumber := txn.getSequenceNumber
  governanceRole := txn.governanceRole

variable (index : PriorityIndex) (txn : MempoolTransaction)

def insert : PriorityIndex :=
  BTreeSet.insert OrderedQueueKey.cmp (makeKey txn) index

def remove : PriorityIndex :=
  BTreeSet.remove OrderedQueueKey.cmp (makeKey txn) index

theorem mem_remove {index : PriorityIndex} {txn key} :
    key ∈ index.remove txn ↔ key ∈ index ∧ (makeKey txn).cmp key ≠ .eq :=
  BTreeSet.mem_remove

def contains (index : PriorityIndex) (txn : MempoolTransaction) : Bool :=
  BTreeSet.contains OrderedQueueKey.cmp (makeKey txn) index

def iter (index : PriorityIndex) : List OrderedQueueKey := index.reverse

end PriorityIndex

/-! ## Expiration -/

structure TTLOrderingKey where
  expirationTime : Nat
  address : AccountAddress
  sequenceNumber : Nat
  deriving DecidableEq, Repr

namespace TTLOrderingKey

def cmp (key other : TTLOrderingKey) : Ordering :=
  (compare key.expirationTime other.expirationTime).then <|
    (compare key.address other.address).then
      (compare key.sequenceNumber other.sequenceNumber)

def pointer (key : TTLOrderingKey) : TxnPointer := (key.address, key.sequenceNumber)

theorem cmp_eq_iff {key other : TTLOrderingKey} : key.cmp other = .eq ↔ key = other := by
  rcases key with ⟨_, _, _⟩
  rcases other with ⟨_, _, _⟩
  simp [cmp, then_eq_eq]

end TTLOrderingKey

open TTLOrderingKey

abbrev TTLIndex := List TTLOrderingKey

namespace TTLIndex

variable (index : TTLIndex) (key : TTLOrderingKey)

def insert : TTLIndex :=
  BTreeSet.insert TTLOrderingKey.cmp key index

def remove : TTLIndex :=
  BTreeSet.remove TTLOrderingKey.cmp key index

def isExpired (now : Nat) (key : TTLOrderingKey) : Bool := key.cmp ⟨now, 0, 0⟩ == .lt

def gc (index : TTLIndex) (now : Nat) : TTLIndex × List TTLOrderingKey :=
  (index.filter fun key => !isExpired now key, index.filter (isExpired now))

variable {key other : TTLOrderingKey}

theorem mem_insert {index : TTLIndex} : other ∈ index.insert key ↔ other = key ∨ other ∈ index :=
  BTreeSet.mem_insert cmp_eq_iff

theorem mem_remove {index : TTLIndex} : other ∈ index.remove key ↔ other ∈ index ∧ other ≠ key := by
  rw [remove, BTreeSet.mem_remove, ne_eq, cmp_eq_iff, eq_comm]

theorem isExpired_iff {now : Nat} : isExpired now key = true ↔ key.expirationTime < now := by
  simp only [isExpired, TTLOrderingKey.cmp, beq_iff_eq, then_eq_lt, Nat.compare_eq_lt,
    Nat.compare_eq_eq]
  omega

end TTLIndex

/-! ## Timeline -/

structure TimelineIndex where
  timelineId : Nat := 1
  timeline : BTreeMap Nat TxnPointer := ∅

namespace TimelineIndex

/-- The transaction comes back in the state `Ready`. -/
def insert (index : TimelineIndex) (txn : MempoolTransaction) :
    TimelineIndex × MempoolTransaction :=
  ({ timelineId := index.timelineId + 1
     timeline := index.timeline.insert index.timelineId txn.pointer },
    { txn with timelineState := .ready index.timelineId })

variable (index : TimelineIndex) (txn : MempoolTransaction)

def remove : TimelineIndex :=
  match txn.timelineState with
  | .ready timelineId => { index with timeline := index.timeline.erase timelineId }
  | .notReady | .nonQualified => index

theorem getElem?_remove {index : TimelineIndex} {txn id pointer} :
    (index.remove txn).timeline[id]? = some pointer ↔
      index.timeline[id]? = some pointer ∧ txn.timelineState ≠ .ready id := by
  unfold remove
  cases txn.timelineState with
  | ready other => by_cases hid : other = id <;> simp [hid]
  | notReady | nonQualified => simp

theorem timelineId_remove : (index.remove txn).timelineId = index.timelineId := by
  unfold remove
  cases txn.timelineState <;> rfl

end TimelineIndex

/-! ## Parking lot -/

/-- The sequence numbers parked for each account, and where the account stands in `data`. -/
structure ParkingLotIndex where
  data : List (AccountAddress × List Nat) := []
  accountIndices : BTreeMap AccountAddress Nat := ∅
  size : Nat := 0

/-- `Vec::swap_remove`. -/
def swapRemove {α : Type} (xs : List α) (index : Nat) : List α :=
  match xs.getLast? with
  | none => xs
  | some last => (xs.set index last).dropLast

theorem swapRemove_concat {α} (front : List α) (x : α) :
    swapRemove (front ++ [x]) front.length = front := by
  simp [swapRemove]

theorem swapRemove_append {α} (front mid : List α) (x last : α) :
    swapRemove (front ++ x :: (mid ++ [last])) front.length = front ++ last :: mid := by
  have hlast (y : α) : front ++ y :: (mid ++ [last]) = front ++ y :: mid ++ [last] := by simp
  have hset : (front ++ x :: mid ++ [last]).set front.length last =
      front ++ last :: mid ++ [last] := by simp
  rw [hlast, swapRemove, getLast?_concat]
  simp only [hset, dropLast_concat]

theorem idxOf?_append {α : Type} [DecidableEq α] (xs ys : List α) (a : α) :
    (xs ++ ys).idxOf? a = (xs.idxOf? a).or ((ys.idxOf? a).map (· + xs.length)) :=
  findIdx?_append

namespace ParkingLotIndex

def insert (lot : ParkingLotIndex) (pointer : TxnPointer) : ParkingLotIndex :=
  match lot.accountIndices[pointer.1]? with
  | some index =>
    match lot.data[index]? with
    | some (account, numbers) =>
      { lot with
        data := lot.data.set index (account, BTreeSet.insert compare pointer.2 numbers)
        size := if pointer.2 ∈ numbers then lot.size else lot.size + 1 }
    | none => lot
  | none =>
    { data := lot.data ++ [(pointer.1, [pointer.2])]
      accountIndices := lot.accountIndices.insert pointer.1 lot.data.length
      size := lot.size + 1 }

def reindex (data : List (AccountAddress × List Nat)) (indices : BTreeMap AccountAddress Nat)
    (index : Nat) : BTreeMap AccountAddress Nat :=
  match data[index]? with
  | some (account, _) => indices.insert account index
  | none => indices

variable (lot : ParkingLotIndex)

def remove (pointer : TxnPointer) : ParkingLotIndex :=
  match lot.accountIndices[pointer.1]? with
  | none => lot
  | some index =>
    match lot.data[index]? with
    | none => lot
    | some (account, numbers) =>
      let size := if pointer.2 ∈ numbers then lot.size - 1 else lot.size
      let numbers := BTreeSet.remove compare pointer.2 numbers
      if numbers = [] then
        { data := swapRemove lot.data index
          accountIndices := reindex (swapRemove lot.data index)
            (lot.accountIndices.erase pointer.1) index
          size := size }
      else
        { lot with data := lot.data.set index (account, numbers), size := size }

def contains (pointer : TxnPointer) : Bool :=
  match lot.accountIndices[pointer.1]? with
  | none => false
  | some index => lot.data[index]?.any fun entry => entry.2.contains pointer.2

def getPoppable (random : Nat) : Option TxnPointer :=
  match lot.data[random % lot.data.length]? with
  | none => none
  | some (sender, numbers) => numbers.getLast?.map (sender, ·)

/-- Each account has one entry, where its index says, with its numbers in order. -/
structure Valid : Prop where
  nodup : (lot.data.map Prod.fst).Nodup
  indices : ∀ account : AccountAddress,
    lot.accountIndices[account]? = (lot.data.map Prod.fst).idxOf? account
  numbers : ∀ entry ∈ lot.data, entry.2 ≠ [] ∧ entry.2.Pairwise (· < ·)
  size : lot.size = (lot.data.map fun entry => entry.2.length).sum

def Parks (pointer : TxnPointer) : Prop :=
  ∃ numbers, (pointer.1, numbers) ∈ lot.data ∧ pointer.2 ∈ numbers

variable {lot : ParkingLotIndex} {pointer other : TxnPointer} {numbers numbers' : List Nat}
  {account : AccountAddress} {index : Nat} {front back : List (AccountAddress × List Nat)}

section Numbers

variable {x y : Nat}

theorem mem_insert_number : y ∈ BTreeSet.insert compare x numbers ↔ y = x ∨ y ∈ numbers :=
  BTreeSet.mem_insert Nat.compare_eq_eq

theorem insert_number (h : numbers.Pairwise (· < ·)) :
    (BTreeSet.insert compare x numbers).Pairwise (· < ·) ∧
      (BTreeSet.insert compare x numbers).length =
        if x ∈ numbers then numbers.length else numbers.length + 1 := by
  induction numbers with
  | nil => simp [BTreeSet.insert]
  | cons z zs ih =>
    obtain ⟨hz, hzs⟩ := pairwise_cons.mp h
    obtain ⟨hsorted, hlength⟩ := ih hzs
    unfold BTreeSet.insert
    cases hcmp : compare x z with
    | lt =>
      have hlt := Nat.compare_eq_lt.mp hcmp
      have hall : ∀ y ∈ z :: zs, x < y := forall_mem_cons.mpr ⟨hlt, fun y hy => hlt.trans (hz y hy)⟩
      exact ⟨h.cons hall, by rw [if_neg fun hmem => lt_irrefl _ (hall x hmem)]; rfl⟩
    | eq => exact ⟨h, by simp [Nat.compare_eq_eq.mp hcmp]⟩
    | gt =>
      have hgt := Nat.compare_eq_gt.mp hcmp
      refine ⟨hsorted.cons fun y hy => ?_, ?_⟩
      · exact (mem_insert_number.mp hy).elim (· ▸ hgt) (hz y)
      · simp only [length_cons, hlength, mem_cons, hgt.ne', false_or]
        split <;> rfl

theorem remove_number (h : numbers.Pairwise (· < ·)) :
    BTreeSet.remove compare x numbers = numbers.erase x := by
  rw [Nodup.erase_eq_filter (h.imp ne_of_lt), BTreeSet.remove]
  refine filter_congr fun y _ => ?_
  rw [Bool.eq_iff_iff, bne_iff_ne, bne_iff_ne, ne_eq, Nat.compare_eq_eq, ne_comm]

end Numbers

theorem Valid.empty : Valid {} where
  nodup := nodup_nil
  indices account := by simp
  numbers := by simp
  size := rfl

/-- The entry of an account stands between those of the others. -/
theorem Valid.exists_entry (h : lot.Valid) (hindex : lot.accountIndices[account]? = some index) :
    ∃ front numbers back, lot.data = front ++ (account, numbers) :: back ∧ front.length = index ∧
      ∀ entry ∈ front ++ back, entry.1 ≠ account := by
  rw [h.indices, idxOf?_eq_some_iff] at hindex
  obtain ⟨hlt, haccount, -⟩ := hindex
  rw [length_map] at hlt
  have hsplit : lot.data =
      lot.data.take index ++ (account, lot.data[index].2) :: lot.data.drop (index + 1) := by
    rw [← haccount, getElem_map, getElem_cons_drop, take_append_drop]
  refine ⟨_, _, _, hsplit, by simp [hlt.le], fun entry hentry heq => ?_⟩
  have hnodup := h.nodup
  rw [hsplit, map_append, map_cons, nodup_middle, nodup_cons, ← map_append] at hnodup
  exact hnodup.1 (List.mem_map.mpr ⟨entry, hentry, heq⟩)

theorem parks_append (hdata : lot.data = front ++ (account, numbers) :: back)
    (hother : ∀ entry ∈ front ++ back, entry.1 ≠ account) (pointer) :
    lot.Parks pointer ↔ if pointer.1 = account then pointer.2 ∈ numbers
      else ∃ found, (pointer.1, found) ∈ front ++ back ∧ pointer.2 ∈ found := by
  simp only [Parks, hdata, perm_middle.mem_iff, mem_cons, Prod.mk.injEq]
  split
  next heq =>
    constructor
    · rintro ⟨found, ⟨-, rfl⟩ | hmem, hnumber⟩
      · exact hnumber
      · exact absurd heq (hother _ hmem)
    · exact fun hnumber => ⟨numbers, .inl ⟨heq, rfl⟩, hnumber⟩
  next hne => simp only [hne, false_and, false_or]

theorem Valid.parks_none (h : lot.Valid) (hindex : lot.accountIndices[pointer.1]? = none) :
    ¬ lot.Parks pointer := by
  rintro ⟨_, hmem, -⟩
  rw [h.indices, idxOf?_eq_none_iff] at hindex
  exact hindex (mem_map_of_mem hmem)

theorem contains_iff (h : lot.Valid) : lot.contains pointer = true ↔ lot.Parks pointer := by
  unfold contains
  cases hindex : lot.accountIndices[pointer.1]? with
  | none => exact iff_of_false (by simp) (h.parks_none hindex)
  | some index =>
    obtain ⟨front, numbers, back, hdata, rfl, hother⟩ := h.exists_entry hindex
    simp [parks_append hdata hother, hdata]

theorem parks_of_getPoppable {random : Nat} (h : lot.getPoppable random = some pointer) :
    lot.Parks pointer := by
  unfold getPoppable at h
  split at h
  · cases h
  next _ numbers hdata =>
    obtain ⟨_, hlast, rfl⟩ := map_eq_some_iff.mp h
    exact ⟨numbers, mem_iff_getElem?.mpr ⟨_, hdata⟩, mem_of_getLast? hlast⟩

section Entry

variable (h : lot.Valid) (hdata : lot.data = front ++ (account, numbers) :: back)
  (hother : ∀ entry ∈ front ++ back, entry.1 ≠ account)

include h hdata hother

theorem Valid.setNumbers {size} (hnumbers : numbers' ≠ [] ∧ numbers'.Pairwise (· < ·))
    (hsize : size + numbers.length = lot.size + numbers'.length) :
    Valid { lot with data := lot.data.set front.length (account, numbers'), size := size } ∧
      ∀ other, Parks { lot with
          data := lot.data.set front.length (account, numbers'), size := size } other ↔
        if other.1 = account then other.2 ∈ numbers' else lot.Parks other := by
  have hset : lot.data.set front.length (account, numbers') =
      front ++ (account, numbers') :: back := by simp [hdata]
  rw [hset]
  refine ⟨⟨?_, fun a => ?_, fun entry hentry => ?_, ?_⟩, fun other => ?_⟩
  · simpa [hdata] using h.nodup
  · rw [h.indices, hdata]
    simp
  · rcases mem_append.mp hentry with hmem | hmem
    · exact h.numbers entry (by simp [hdata, hmem])
    · rcases mem_cons.mp hmem with rfl | hmem
      · exact hnumbers
      · exact h.numbers entry (by simp [hdata, hmem])
  · have hold := h.size
    rw [hdata] at hold
    simp only [map_append, map_cons, sum_append, sum_cons] at hold ⊢
    omega
  · rw [parks_append rfl hother]
    split
    · rfl
    next hne => rw [parks_append hdata hother, if_neg hne]

theorem Valid.dropAccount {size} (hsize : size + numbers.length = lot.size) :
    let dropped := ⟨swapRemove lot.data front.length, reindex (swapRemove lot.data front.length)
      (lot.accountIndices.erase account) front.length, size⟩
    Valid dropped ∧ ∀ other, dropped.Parks other ↔ other.1 ≠ account ∧ lot.Parks other := by
  intro dropped
  have hnone (xs : List (AccountAddress × List Nat)) (hxs : xs ⊆ front ++ back) :
      (xs.map Prod.fst).idxOf? account = none := by
    rw [idxOf?_eq_none_iff]
    intro hmem
    obtain ⟨entry, hentry, heq⟩ := List.mem_map.mp hmem
    exact hother entry (hxs hentry) heq
  have hnodup := h.nodup
  rw [hdata, map_append, map_cons, nodup_middle, nodup_cons, ← map_append] at hnodup
  obtain ⟨hperm, hindices⟩ : dropped.data ~ front ++ back ∧ ∀ a : AccountAddress,
      dropped.accountIndices[a]? = (dropped.data.map Prod.fst).idxOf? a := by
    rcases eq_nil_or_concat' back with rfl | ⟨mid, last, rfl⟩
    · have hdropped : swapRemove lot.data front.length = front := by rw [hdata, swapRemove_concat]
      simp only [dropped, hdropped]
      refine ⟨by simp, fun a => ?_⟩
      simp only [reindex, getElem?_eq_none le_rfl, getElem?_erase, h.indices, hdata, map_append,
        idxOf?_append]
      split
      next heq => rw [← heq, hnone front (by simp)]
      next hne => simp [idxOf?_cons, hne]
    · have hdropped : swapRemove lot.data front.length = front ++ last :: mid := by
        rw [hdata, swapRemove_append]
      have hlast : (front ++ last :: mid)[front.length]? = some last := by simp
      have hfront : (front.map Prod.fst).idxOf? last.1 = none := by
        rw [idxOf?_eq_none_iff]
        intro hmem
        simp only [map_append, nodup_append] at hnodup
        exact hnodup.2.2.2 last.1 hmem last.1 (by simp) rfl
      simp only [dropped, hdropped]
      refine ⟨by simpa using (perm_append_singleton last mid).symm.append_left front, fun a => ?_⟩
      simp only [reindex, hlast, getElem?_insert, getElem?_erase, h.indices, hdata, map_append,
        map_cons, idxOf?_append, idxOf?_cons, beq_iff_eq]
      -- the last account stands where the one that goes stood
      split
      next heq => simp [← heq, hfront]
      next hne =>
        split
        next heq =>
          subst heq
          simp [hnone front, hnone mid fun entry hentry => by simp [hentry]]
        · simp [Nat.add_comm]
  refine ⟨⟨?_, hindices, fun entry hentry => ?_, ?_⟩, fun other => ?_⟩
  · exact ((hperm.map Prod.fst).nodup_iff).mpr hnodup.2
  · refine h.numbers entry ?_
    rw [hdata, perm_middle.mem_iff]
    exact mem_cons_of_mem _ (hperm.mem_iff.mp hentry)
  · have hold := h.size
    rw [hdata, (perm_middle.map _).sum_nat, map_cons, sum_cons] at hold
    rw [(hperm.map _).sum_nat]
    change size = _
    dsimp only at hold
    omega
  · rw [parks_append hdata hother]
    simp only [Parks, hperm.mem_iff]
    split
    next heq =>
      refine iff_of_false ?_ fun hparks => hparks.1 heq
      rintro ⟨_, hmem, -⟩
      exact hother _ hmem heq
    next hne => simp [hne]

end Entry

theorem Valid.insert (h : lot.Valid) (pointer) :
    (lot.insert pointer).Valid ∧
      ∀ other, (lot.insert pointer).Parks other ↔ other = pointer ∨ lot.Parks other := by
  unfold ParkingLotIndex.insert
  cases hindex : lot.accountIndices[pointer.1]? with
  | some index =>
    obtain ⟨front, numbers, back, hdata, rfl, hother⟩ := h.exists_entry hindex
    have hget : lot.data[front.length]? = some (pointer.1, numbers) := by simp [hdata]
    have hold := (h.numbers _ (mem_of_getElem? hget)).2
    obtain ⟨hsorted, hlength⟩ := @insert_number numbers pointer.2 hold
    have hsize : (if pointer.2 ∈ numbers then lot.size else lot.size + 1) + numbers.length =
        lot.size + (BTreeSet.insert compare pointer.2 numbers).length := by
      rw [hlength]
      split <;> omega
    obtain ⟨hvalid, hparks⟩ := h.setNumbers hdata hother
      ⟨ne_nil_of_mem (mem_insert_number.mpr (.inl rfl)), hsorted⟩ hsize
    simp only [hget]
    refine ⟨hvalid, fun other => ?_⟩
    rw [hparks, parks_append hdata hother]
    split
    next heq => simp [mem_insert_number, Prod.ext_iff, heq]
    next hne =>
      have hne' : other ≠ pointer := fun heq => hne (congrArg Prod.fst heq)
      simp [hne']
  | none =>
    have hnew : pointer.1 ∉ lot.data.map Prod.fst := by rwa [← idxOf?_eq_none_iff, ← h.indices]
    refine ⟨⟨?_, fun a => ?_, fun entry hentry => ?_, by simp [h.size]⟩, fun other => ?_⟩
    · rw [map_append, nodup_append_comm]
      exact nodup_cons.mpr ⟨hnew, h.nodup⟩
    · simp only [getElem?_insert, map_append, idxOf?_append, ← h.indices]
      split
      next heq => simp [← heq, hindex]
      next hne => simp [idxOf?_cons, hne]
    · rcases mem_append.mp hentry with hold | hentry
      · exact h.numbers entry hold
      · simp [mem_singleton.mp hentry]
    · simp only [Parks, mem_append, mem_singleton, Prod.mk.injEq]
      constructor
      · rintro ⟨numbers, hold | ⟨heq, rfl⟩, hnumber⟩
        · exact .inr ⟨numbers, hold, hnumber⟩
        · exact .inl (Prod.ext heq (mem_singleton.mp hnumber))
      · rintro (rfl | ⟨numbers, hold, hnumber⟩)
        · exact ⟨[other.2], .inr ⟨rfl, rfl⟩, by simp⟩
        · exact ⟨numbers, .inl hold, hnumber⟩

theorem Valid.remove (h : lot.Valid) (pointer) :
    (lot.remove pointer).Valid ∧
      ∀ other, (lot.remove pointer).Parks other ↔ lot.Parks other ∧ other ≠ pointer := by
  unfold ParkingLotIndex.remove
  cases hindex : lot.accountIndices[pointer.1]? with
  | none =>
    refine ⟨h, fun other => ⟨fun hparks => ⟨hparks, ?_⟩, And.left⟩⟩
    rintro rfl
    exact h.parks_none hindex hparks
  | some index =>
    obtain ⟨front, numbers, back, hdata, rfl, hother⟩ := h.exists_entry hindex
    have hget : lot.data[front.length]? = some (pointer.1, numbers) := by simp [hdata]
    have hsorted := (h.numbers _ (mem_of_getElem? hget)).2
    have hle : numbers.length ≤ lot.size := by
      simp only [h.size, hdata, map_append, map_cons, sum_append, sum_cons]
      omega
    have hsize : (if pointer.2 ∈ numbers then lot.size - 1 else lot.size) + numbers.length =
        lot.size + (numbers.erase pointer.2).length := by
      rw [length_erase]
      split
      next hmem =>
        have hpos := length_pos_of_mem hmem
        omega
      · rfl
    have hparked other : (if other.1 = pointer.1 then other.2 ∈ numbers.erase pointer.2
        else lot.Parks other) ↔ lot.Parks other ∧ other ≠ pointer := by
      rw [ne_eq, Prod.ext_iff]
      split
      next heq =>
        rw [Nodup.mem_erase_iff (hsorted.imp ne_of_lt), parks_append hdata hother, if_pos heq]
        simp [heq, and_comm]
      next hne => simp [hne]
    simp only [hget, remove_number hsorted]
    split
    next hempty =>
      rw [hempty, length_nil, add_zero] at hsize
      obtain ⟨hvalid, hparks⟩ := h.dropAccount hdata hother hsize
      refine ⟨hvalid, fun other => ?_⟩
      rw [hparks, ← hparked, hempty]
      split
      next heq => simp [heq]
      next hne => simp [hne]
    next hne =>
      obtain ⟨hvalid, hparks⟩ := h.setNumbers hdata hother ⟨hne, hsorted.erase _⟩ hsize
      exact ⟨hvalid, fun other => (hparks other).trans (hparked other)⟩

end ParkingLotIndex

end Loki.Diem.CoreMempool
