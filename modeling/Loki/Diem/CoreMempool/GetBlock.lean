import Loki.Diem.CoreMempool.Mempool
import Mathlib.Data.Finset.Card

/-!
# The block drawn from the mempool

`Mempool::get_block` reads the transactions by their price and keeps those of one account in order:
a transaction that comes before its predecessor is skipped, and taken once the predecessor is.
-/

namespace Loki.Diem.CoreMempool

open List SignedTransaction Nat

structure Draft where
  seen : Finset TxnPointer
  result : List TxnPointer := []
  skipped : Finset TxnPointer := ∅

namespace Draft

variable (draft : Draft) (pointer : TxnPointer)

def push : Draft :=
  { draft with seen := insert pointer draft.seen, result := draft.result ++ [pointer] }

def skip : Draft :=
  { draft with skipped := insert pointer draft.skipped }

/-- The transactions that were skipped and can be taken now.  The second component says that the
block is full. -/
def takeSkipped (batchSize : Nat) (address : AccountAddress) : Nat → Nat → Draft → Draft × Bool
  | 0, _, draft => (draft, false)
  | fuel + 1, number, draft =>
    if (address, number) ∈ draft.skipped then
      let draft := draft.push (address, number)
      if draft.result.length = batchSize then (draft, true)
      else takeSkipped batchSize address fuel (number + 1) draft
    else (draft, false)

def visit (cached : AccountAddress → Option Nat) (batchSize : Nat) (draft : Draft)
    (txn : OrderedQueueKey) : Draft × Bool :=
  if txn.pointer ∈ draft.seen then (draft, false)
  else
    let seq := txn.sequenceNumber
    let seenPrevious := 0 < seq ∧ (txn.address, seq - 1) ∈ draft.seen
    if seenPrevious ∨ cached txn.address = some seq then
      let draft := draft.push txn.pointer
      if draft.result.length = batchSize then (draft, true)
      else takeSkipped batchSize txn.address (draft.skipped.card + 1) (seq + 1) draft
    else (draft.skip txn.pointer, false)

def walk (cached : AccountAddress → Option Nat) (batchSize : Nat) :
    List OrderedQueueKey → Draft → Draft
  | [], draft => draft
  | txn :: queue, draft =>
    let (draft, isFull) := draft.visit cached batchSize txn
    if isFull then draft else walk cached batchSize queue draft

end Draft

def Mempool.getBlock (mempool : Mempool) (batchSize : Nat) (seen : Finset TxnPointer) :
    List SignedTransaction :=
  let queue := mempool.transactions.priorityIndex.iter
  let draft := Draft.walk mempool.cached batchSize queue { seen := seen }
  draft.result.filterMap fun pointer => mempool.transactions.get pointer.1 pointer.2

/-- A transaction has the cached number of its account, or directly follows one of `before`. -/
def Follows (cached : AccountAddress → Option Nat) (before : TxnPointer → Prop)
    (pointer : TxnPointer) : Prop :=
  cached pointer.1 = some pointer.2 ∨
    ∃ number, pointer.2 = number + 1 ∧ before (pointer.1, number)

theorem Follows.mono {cached before before' pointer} (h : Follows cached before pointer)
    (hsub : ∀ other, before other → before' other) : Follows cached before' pointer := by
  rcases h with hcached | ⟨number, hnumber, hbefore⟩
  · exact .inl hcached
  · exact .inr ⟨number, hnumber, hsub _ hbefore⟩

namespace Draft

variable {cached : AccountAddress → Option Nat} {batchSize : Nat} {seen : Finset TxnPointer}
  {source : TxnPointer → Prop} {draft draft' : Draft}

section

variable (cached : AccountAddress → Option Nat)

/-- What holds of the variables throughout, for the transactions that were seen at first. -/
structure Ordered (seen : Finset TxnPointer)
    (source : TxnPointer → Prop) (draft : Draft) : Prop where
  seen_iff : ∀ pointer, pointer ∈ draft.seen ↔ pointer ∈ seen ∨ pointer ∈ draft.result
  nodup : draft.result.Nodup
  unseen : ∀ pointer ∈ draft.result, pointer ∉ seen
  follows : ∀ front pointer back, draft.result = front ++ pointer :: back →
    Follows cached (fun other => other ∈ seen ∨ other ∈ front) pointer
  -- a skipped transaction is taken with its predecessor
  predecessor : ∀ address number, (address, number + 1) ∈ draft.skipped →
    (address, number + 1) ∈ draft.seen → (address, number) ∈ draft.seen
  source : ∀ pointer, pointer ∈ draft.result ∨ pointer ∈ draft.skipped → source pointer

/-- A skipped transaction other than that of `candidate` cannot be taken. -/
def Maximal (candidate : TxnPointer → Prop) (draft : Draft) : Prop :=
  ∀ pointer ∈ draft.skipped, pointer ∉ draft.seen → ¬ candidate pointer →
    ¬ Follows cached (· ∈ draft.seen) pointer

end

theorem ordered_start : Ordered cached seen source { seen := seen } := by constructor <;> simp

theorem Ordered.push (h : Ordered cached seen source draft) {pointer}
    (hunseen : pointer ∉ draft.seen) (hsource : source pointer)
    (hfollows : Follows cached (· ∈ draft.seen) pointer)
    (hskipped : pointer ∈ draft.skipped → ∃ number, pointer.2 = number + 1 ∧
      (pointer.1, number) ∈ draft.seen) : Ordered cached seen source (draft.push pointer) := by
  have hnew : pointer ∉ seen ∧ pointer ∉ draft.result := by
    rw [h.seen_iff, not_or] at hunseen
    exact hunseen
  constructor
  case seen_iff =>
    intro other
    simp only [Draft.push, Finset.mem_insert, h.seen_iff, mem_append, mem_singleton]
    tauto
  case nodup =>
    simp only [Draft.push]
    rw [nodup_append]
    exact ⟨h.nodup, by simp, fun other hother last hlast => by
      rw [mem_singleton.mp hlast]
      rintro rfl
      exact hnew.2 hother⟩
  case unseen =>
    intro other hother
    rcases mem_append.mp hother with hold | hlast
    · exact h.unseen other hold
    · rw [mem_singleton.mp hlast]
      exact hnew.1
  case follows =>
    intro front other back hsplit
    rcases eq_nil_or_concat back with rfl | ⟨rest, last, rfl⟩
    · obtain ⟨hfront, hother⟩ := append_inj' hsplit rfl
      rw [← hfront, ← singleton_inj.mp hother]
      exact hfollows.mono fun before => (h.seen_iff before).mp
    · have hsplit : draft.result ++ [pointer] = (front ++ other :: rest) ++ [last] := by
        simpa [Draft.push] using hsplit
      exact h.follows front other rest (append_inj' hsplit rfl).1
  case predecessor =>
    intro address number hmem hseen
    simp only [Draft.push, Finset.mem_insert] at hmem hseen ⊢
    rcases hseen with rfl | hold
    · obtain ⟨_, hnumber, hprevious⟩ := hskipped hmem
      obtain rfl := succ.inj hnumber
      exact .inr hprevious
    · exact .inr (h.predecessor address number hmem hold)
  case source =>
    intro other hother
    simp only [Draft.push, mem_append, mem_singleton] at hother
    rcases hother with (hold | rfl) | hold
    · exact h.source other (.inl hold)
    · exact hsource
    · exact h.source other (.inr hold)

theorem Ordered.skip (h : Ordered cached seen source draft) {pointer}
    (hunseen : pointer ∉ draft.seen) (hsource : source pointer) :
    Ordered cached seen source (draft.skip pointer) := by
  refine { h with predecessor := ?_, source := ?_ }
  · intro address number hmem hseen
    rcases Finset.mem_insert.mp hmem with rfl | hold
    · exact absurd hseen hunseen
    · exact h.predecessor address number hold hseen
  · rintro other (hresult | hskipped)
    · exact h.source other (.inl hresult)
    · rcases Finset.mem_insert.mp hskipped with rfl | hold
      · exact hsource
      · exact h.source other (.inr hold)

theorem Maximal.push {address number} (h : Maximal cached (· = (address, number)) draft) :
    Maximal cached (· = (address, number + 1)) (draft.push (address, number)) := by
  intro pointer hskipped hunseen hne hfollows
  simp only [Draft.push, Finset.mem_insert, not_or] at hskipped hunseen hfollows
  refine h pointer hskipped hunseen.2 hunseen.1 ?_
  rcases hfollows with hcached | ⟨previous, hprevious, heq | hold⟩
  · exact .inl hcached
  · obtain ⟨haddress, hnumber⟩ := Prod.mk.inj heq
    exact absurd (Prod.ext haddress (by rw [hprevious, hnumber])) hne
  · exact .inr ⟨previous, hprevious, hold⟩

/-- A round of the loop: it fills the block, or leaves room and takes what it can. -/
structure Advances (cached : AccountAddress → Option Nat) (batchSize : Nat)
    (seen : Finset TxnPointer) (source : TxnPointer → Prop) (draft draft' : Draft) (isFull : Bool) :
    Prop where
  ordered : Ordered cached seen source draft'
  seen_subset : draft.seen ⊆ draft'.seen
  skipped_subset : draft.skipped ⊆ draft'.skipped
  full : isFull = true → draft'.result.length = batchSize
  room : isFull = false → draft'.result.length < batchSize ∧
    Maximal cached (fun _ => False) draft'

theorem length_push (draft : Draft) (pointer) :
    (draft.push pointer).result.length = draft.result.length + 1 := by
  simp [push]

theorem Advances.of_push {pointer isFull}
    (h : Advances cached batchSize seen source (draft.push pointer) draft' isFull) :
    Advances cached batchSize seen source draft draft' isFull :=
  { h with seen_subset := (Finset.subset_insert _ _).trans h.seen_subset }

/-- A transaction is taken, and after it those that were skipped and can be taken now. -/
theorem advances_push (address) (fuel number : Nat) (h : Ordered cached seen source draft)
    (hunseen : (address, number) ∉ draft.seen) (hsource : source (address, number))
    (hfollows : Follows cached (· ∈ draft.seen) (address, number))
    (hskipped : (address, number) ∈ draft.skipped → ∃ previous, number = previous + 1 ∧
      (address, previous) ∈ draft.seen)
    (hfuel : (draft.skipped.filter fun pointer => number < pointer.2).card < fuel)
    (hlength : draft.result.length < batchSize)
    (hmaximal : Maximal cached (· = (address, number)) draft) :
    let pushed := draft.push (address, number)
    let round := if pushed.result.length = batchSize then (pushed, true)
      else takeSkipped batchSize address fuel (number + 1) pushed
    Advances cached batchSize seen source pushed round.1 round.2 := by
  induction fuel generalizing number draft with
  | zero => omega
  | succ _ ih =>
    have hpush := h.push hunseen hsource hfollows hskipped
    have hself : (address, number) ∈ (draft.push (address, number)).seen :=
      Finset.mem_insert_self _ _
    simp only
    split
    next hfull =>
      exact ⟨hpush, Finset.Subset.refl _, Finset.Subset.refl _, fun _ => hfull, by simp⟩
    next hroom =>
      have hlength' : (draft.push (address, number)).result.length < batchSize := by
        rw [length_push] at hroom ⊢
        omega
      unfold takeSkipped
      split
      next hnext =>
        refine (ih (number + 1) hpush ?_ (h.source _ (.inr hnext)) (.inr ⟨number, rfl, hself⟩)
          (fun _ => ⟨number, rfl, hself⟩) ?_ hlength' hmaximal.push).of_push
        · intro hseen
          rcases Finset.mem_insert.mp hseen with heq | hold
          · simp at heq
          · exact hunseen (h.predecessor address number hnext hold)
        · -- the next one is not counted any more
          refine lt_of_lt_of_le (Finset.card_lt_card ⟨fun _ hpointer => ?_, fun hall => ?_⟩)
            (le_of_lt_succ hfuel)
          · simp only [push, Finset.mem_filter] at hpointer ⊢
            exact ⟨hpointer.1, by omega⟩
          · have := hall (Finset.mem_filter.mpr ⟨hnext, lt_succ_self _⟩)
            simp [push] at this
      next hnext =>
        refine ⟨hpush, Finset.Subset.refl _, Finset.Subset.refl _, by simp, fun _ => ⟨hlength', ?_⟩⟩
        intro pointer hpointer hnot _
        refine hmaximal.push pointer hpointer hnot ?_
        rintro rfl
        exact hnext hpointer

theorem follows_iff {pointer} : Follows cached (· ∈ draft.seen) pointer ↔
    (0 < pointer.2 ∧ (pointer.1, pointer.2 - 1) ∈ draft.seen) ∨
      cached pointer.1 = some pointer.2 := by
  rw [or_comm, Follows]
  refine or_congr Iff.rfl ?_
  constructor
  · rintro ⟨_, hnumber, hseen⟩
    rw [hnumber]
    exact ⟨succ_pos _, hseen⟩
  · rintro ⟨_, hseen⟩
    exact ⟨pointer.2 - 1, by omega, hseen⟩

theorem advances_visit (h : Ordered cached seen source draft)
    (hlength : draft.result.length < batchSize) (hmaximal : Maximal cached (fun _ => False) draft)
    {txn : OrderedQueueKey} (hsource : source txn.pointer) :
    Advances cached batchSize seen source draft (draft.visit cached batchSize txn).1
        (draft.visit cached batchSize txn).2 ∧
      (txn.pointer ∈ (draft.visit cached batchSize txn).1.seen ∨
        txn.pointer ∈ (draft.visit cached batchSize txn).1.skipped) := by
  unfold visit
  split
  next hseen =>
    exact ⟨⟨h, Finset.Subset.refl _, Finset.Subset.refl _, by simp, fun _ => ⟨hlength, hmaximal⟩⟩,
      .inl hseen⟩
  next hunseen =>
    simp only
    split
    next htake =>
      have hfollows : Follows cached (· ∈ draft.seen) txn.pointer := follows_iff.mpr htake
      have hskipped : txn.pointer ∉ draft.skipped := fun hmem =>
        hmaximal _ hmem hunseen not_false hfollows
      have hrest := advances_push txn.address (draft.skipped.card + 1) txn.sequenceNumber h hunseen
        hsource hfollows (fun hmem => absurd hmem hskipped)
        (lt_succ_of_le (Finset.card_filter_le _ _)) hlength
        fun pointer hmem hnot _ => hmaximal pointer hmem hnot not_false
      exact ⟨hrest.of_push, .inl (hrest.seen_subset (Finset.mem_insert_self _ _))⟩
    next hskip =>
      have hnot : ¬ Follows cached (· ∈ draft.seen) txn.pointer := fun hfollows =>
        hskip (follows_iff.mp hfollows)
      refine ⟨⟨h.skip hunseen hsource, Finset.Subset.refl _, Finset.subset_insert _ _, by simp,
        fun _ => ⟨hlength, ?_⟩⟩, .inr (Finset.mem_insert_self _ _)⟩
      intro pointer hpointer hunseen' _
      rcases Finset.mem_insert.mp hpointer with rfl | hold
      · exact hnot
      · exact hmaximal pointer hold hunseen' not_false

theorem walk_spec (queue : List OrderedQueueKey) (hsource : ∀ txn ∈ queue, source txn.pointer)
    (h : Ordered cached seen source draft) (hlength : draft.result.length < batchSize)
    (hmaximal : Maximal cached (fun _ => False) draft) :
    ∃ isFull, Advances cached batchSize seen source draft (walk cached batchSize queue draft)
        isFull ∧
      (isFull = false → ∀ txn ∈ queue, txn.pointer ∈ (walk cached batchSize queue draft).seen ∨
        txn.pointer ∈ (walk cached batchSize queue draft).skipped) := by
  induction queue generalizing draft with
  | nil =>
    exact ⟨false, ⟨h, Finset.Subset.refl _, Finset.Subset.refl _, by simp,
      fun _ => ⟨hlength, hmaximal⟩⟩, by simp⟩
  | cons txn _ ih =>
    obtain ⟨hround, hvisited⟩ :=
      advances_visit h hlength hmaximal (hsource txn (mem_cons_self ..))
    unfold walk
    generalize draft.visit cached batchSize txn = next at hround hvisited ⊢
    obtain ⟨next, isFull⟩ := next
    cases isFull with
    | true => exact ⟨true, hround, by simp⟩
    | false =>
      obtain ⟨hlength', hmaximal'⟩ := hround.room rfl
      obtain ⟨isFull, hrest, hvisits⟩ :=
        ih (fun other hother => hsource other (mem_cons_of_mem _ hother)) hround.ordered
          hlength' hmaximal'
      refine ⟨isFull, ?_, fun hroom other hother => ?_⟩
      · exact { hrest with
          seen_subset := hround.seen_subset.trans hrest.seen_subset
          skipped_subset := hround.skipped_subset.trans hrest.skipped_subset }
      · rcases mem_cons.mp hother with rfl | hmem
        · exact hvisited.imp (fun hseen => hrest.seen_subset hseen)
            fun hskipped => hrest.skipped_subset hskipped
        · exact hvisits hroom other hmem

end Draft

def SignedTransaction.pointer (txn : SignedTransaction) : TxnPointer :=
  (txn.sender, txn.sequenceNumber)

namespace Mempool

variable {mempool : Mempool}

theorem map_pointer_filterMap {pointers : List TxnPointer} (h : mempool.transactions.Indexed)
    (hstored : ∀ pointer ∈ pointers, ∃ txn, mempool.transactions.find pointer = some txn) :
    (pointers.filterMap fun pointer => mempool.transactions.get pointer.1 pointer.2).map
      pointer = pointers := by
  induction pointers with
  | nil => rfl
  | cons pointer pointers ih =>
    obtain ⟨txn, htxn⟩ := hstored pointer (mem_cons_self ..)
    have hget : mempool.transactions.get pointer.1 pointer.2 = some txn.txn := by
      rw [TransactionStore.get, htxn]
      rfl
    rw [filterMap_cons]
    simp only [hget]
    rw [map_cons, ih fun other hother => hstored other (mem_cons_of_mem _ hother)]
    exact congrArg (· :: pointers) (h.stored pointer txn htxn)

/-- A block keeps the transactions of each account in order, takes none that was seen, and misses
none that it has room for. -/
theorem getBlock_respects_accounts (config : MempoolConfig) (operations : List Operation)
    (hunready : ∀ operation ∈ operations, operation.Unready) (seen : Finset TxnPointer)
    {batchSize : Nat} (hbatch : 0 < batchSize) : let mempool := run config operations
    let block := mempool.getBlock batchSize seen
    block.length ≤ batchSize ∧ block.Nodup ∧ (∀ txn ∈ block, txn.pointer ∉ seen) ∧
      (∀ front txn back, block = front ++ txn :: back →
        Follows mempool.cached
          (fun other => other ∈ seen ∨ ∃ earlier ∈ front, earlier.pointer = other) txn.pointer) ∧
      (block.length < batchSize → ∀ key ∈ mempool.transactions.priorityIndex,
        key.pointer ∉ seen → (∀ txn ∈ block, txn.pointer ≠ key.pointer) →
        ¬ Follows mempool.cached
          (fun other => other ∈ seen ∨ ∃ txn ∈ block, txn.pointer = other) key.pointer) := by
  intro mempool block
  have hindexed : mempool.transactions.Indexed := (consistent_run config hunready).1
  have hqueue : ∀ txn ∈ mempool.transactions.priorityIndex.iter,
      ∃ stored, mempool.transactions.find txn.pointer = some stored := by
    intro txn htxn
    obtain ⟨stored, hstored⟩ := hindexed.priority (mem_reverse.mp htxn)
    exact ⟨stored, hstored⟩
  have hstart : Draft.Ordered mempool.cached seen
      (fun pointer => ∃ txn, mempool.transactions.find pointer = some txn) { seen := seen } :=
    Draft.ordered_start
  obtain ⟨isFull, hwalk, hvisited⟩ := Draft.walk_spec mempool.transactions.priorityIndex.iter hqueue
    hstart hbatch (by simp [Draft.Maximal])
  generalize hdraft : Draft.walk mempool.cached batchSize mempool.transactions.priorityIndex.iter
    { seen := seen } = draft at hwalk hvisited
  have hordered := hwalk.ordered
  have hblock : block.map pointer = draft.result := by
    have hmap := map_pointer_filterMap hindexed fun pointer hpointer =>
      hordered.source pointer (.inl hpointer)
    rwa [← hdraft] at hmap ⊢
  have hlength : block.length = draft.result.length := by rw [← hblock, length_map]
  have hresult pointer :
      pointer ∈ draft.result ↔ ∃ txn ∈ block, txn.pointer = pointer := by
    rw [← hblock, mem_map]
  refine ⟨?_, ?_, ?_, ?_, ?_⟩
  · cases isFull with
    | true => exact (hlength.trans (hwalk.full rfl)).le
    | false => exact hlength.trans_le (hwalk.room rfl).1.le
  · exact Nodup.of_map _ (hblock ▸ hordered.nodup)
  · intro txn htxn
    exact hordered.unseen _ ((hresult _).mpr ⟨txn, htxn, rfl⟩)
  · intro front txn back hsplit
    have hsplit' : draft.result = front.map pointer ++
        txn.pointer :: back.map pointer := by
      rw [← hblock, hsplit, map_append, map_cons]
    refine (hordered.follows _ _ _ hsplit').mono fun other hother => ?_
    rwa [mem_map] at hother
  · intro hroom key hkey hunseen hnew hfollows
    have hnot : key.pointer ∉ draft.seen := by
      rw [hordered.seen_iff, not_or, hresult]
      refine ⟨hunseen, ?_⟩
      rintro ⟨txn, htxn, heq⟩
      exact hnew txn htxn heq
    cases isFull with
    | true => exact absurd (hlength.trans (hwalk.full rfl)) (Nat.ne_of_lt hroom)
    | false =>
      have hskipped := (hvisited rfl key (mem_reverse.mpr hkey)).resolve_left hnot
      refine (hwalk.room rfl).2 key.pointer hskipped hnot not_false (hfollows.mono fun _ _ => ?_)
      rwa [hordered.seen_iff, hresult]

def addsOutOfOrder : List Operation :=
  let add (sender number score : Nat) : Operation := .addTxn
    { txn := { sender := sender, sequenceNumber := number }
      rankingScore := score
      dbSequenceNumber := 0
      timelineState := .notReady
      governanceRole := .nonGovernanceRole
      systemTime := sender
      now := 0
      random := 0 }
  [add 1 0 1, add 1 1 10, add 2 0 5]

theorem getBlock_respects_accounts_outOfOrder :
    ((run ⟨10, 5, 60⟩ addsOutOfOrder).getBlock 3 ∅).map pointer =
        [(2, 0), (1, 0), (1, 1)] ∧
      ((run ⟨10, 5, 60⟩ addsOutOfOrder).getBlock 3 ∅).Nodup :=
  ⟨by decide +kernel, (getBlock_respects_accounts ⟨10, 5, 60⟩ addsOutOfOrder (by decide) ∅
    (by decide)).2.1⟩

end Mempool

end Loki.Diem.CoreMempool
