import Loki.Fisco.Types
import Loki.Foundation.Run
import Mathlib.Data.List.Sort

/-!
# The queue of downloaded blocks

`DownloadingQueue` of `bcos-sync/state/DownloadingQueue.cpp`.  Shards of blocks wait in a buffer
and are flushed into the queue one by one.  The priority queue is the list of its blocks in the
order in which they leave it.  A shard is the list of what `createBlock` makes of its data, `none`
where it throws, and `blockNumber` is the number of the last block of the node.
-/

namespace Loki.Fisco

open Loki.Foundation List

structure DownloadedBlock where
  number : Int
  hash : HashType
  deriving DecidableEq, Repr

abbrev BlockShard := List (Option DownloadedBlock)

structure DownloadingQueue where
  blocks : List DownloadedBlock := []
  blockBuffer : List BlockShard := []
  deriving DecidableEq, Repr

namespace DownloadingQueue

variable (maxSize : Nat) (blockNumber : Int)

def isNewerBlock (block : DownloadedBlock) : Bool := blockNumber < block.number

/-- The blocks of a shard that can be read and are newer. -/
def newer (shard : BlockShard) : List DownloadedBlock :=
  shard.filterMap (·.filter (isNewerBlock blockNumber))

/-- The blocks, or `none` where the queue is full. -/
def flushOneShard (blocks : List DownloadedBlock) (shard : BlockShard) :
    Option (List DownloadedBlock) :=
  if maxSize ≤ blocks.length then none
  else some ((newer blockNumber shard).foldl (·.orderedInsert (·.number ≤ ·.number) ·) blocks)

/-- The queue, and the shards that were taken from the buffer. -/
def flushBufferToQueue : List DownloadedBlock → List BlockShard → DownloadingQueue × List BlockShard
  | blocks, [] => (⟨blocks, []⟩, [])
  | blocks, shard :: blockBuffer =>
    match flushOneShard maxSize blockNumber blocks shard with
    | none => (⟨blocks, blockBuffer⟩, [shard])
    | some blocks =>
      let (s, taken) := flushBufferToQueue blocks blockBuffer
      (s, shard :: taken)

inductive Operation where
  | push (shard : BlockShard)
  | top (isFlushBuffer : Bool) (blockNumber : Int)
  | pop
  | clearExpiredQueueCache (blockNumber : Int)
  | clearFullQueueIfNotHas (blockNumber : Int)
  deriving DecidableEq, Repr

def step (s : DownloadingQueue) : Operation → DownloadingQueue
  | .push shard =>
    if maxSize ≤ s.blockBuffer.length then s
    else { s with blockBuffer := s.blockBuffer ++ [shard] }
  | .top isFlushBuffer blockNumber =>
    if isFlushBuffer then (flushBufferToQueue maxSize blockNumber s.blocks s.blockBuffer).1 else s
  | .pop => { s with blocks := s.blocks.tail }
  | .clearExpiredQueueCache blockNumber =>
    { s with blocks := s.blocks.dropWhile (!isNewerBlock blockNumber ·) }
  | .clearFullQueueIfNotHas blockNumber =>
    if s.blocks.length = maxSize ∧ s.blocks.head?.any (isNewerBlock blockNumber) then
      { s with blocks := [] }
    else s

/-! ## A usable queue -/

/-- The queue is not too long, every newer block of a shard that was taken is in it, and a full one
is cleared unless it can go on. -/
def Usable (s : DownloadingQueue) (operation : Operation) : Prop :=
  (s.step maxSize operation).blocks.length ≤ maxSize ∧
    match operation with
    | .top true blockNumber =>
      (s.step maxSize operation).blocks.Perm (s.blocks ++
        (flushBufferToQueue maxSize blockNumber s.blocks s.blockBuffer).2.flatMap
          (newer blockNumber))
    | .clearFullQueueIfNotHas blockNumber =>
      (s.step maxSize operation).blocks.length < maxSize ∨
        ∃ block ∈ (s.step maxSize operation).blocks.head?, block.number ≤ blockNumber
    | _ => True

/-- Each shard that is flushed fits into the queue, and one that meets a full queue has nothing
new. -/
def Fits : Nat → List BlockShard → Prop
  | _, [] => True
  | size, shard :: blockBuffer =>
    if maxSize ≤ size then newer blockNumber shard = []
    else size + (newer blockNumber shard).length ≤ maxSize ∧
      Fits (size + (newer blockNumber shard).length) blockBuffer

def Roomy (s : DownloadingQueue) : Operation → Prop
  | .top true blockNumber => Fits maxSize blockNumber s.blocks.length s.blockBuffer
  | .clearFullQueueIfNotHas _ => 0 < maxSize
  | _ => True

variable {maxSize blockNumber} {s : DownloadingQueue}

theorem foldl_orderedInsert_perm (blocks pushed : List DownloadedBlock) :
    (pushed.foldl (·.orderedInsert (·.number ≤ ·.number) ·) blocks).Perm (blocks ++ pushed) := by
  induction pushed generalizing blocks with
  | nil => simp
  | cons block pushed ih =>
    refine (ih _).trans (((perm_orderedInsert _ _ _).append_right _).trans ?_)
    exact perm_middle.symm

theorem flush_iff (blocks) (blockBuffer : List BlockShard) (h : blocks.length ≤ maxSize) :
    (flushBufferToQueue maxSize blockNumber blocks blockBuffer).1.blocks.length ≤ maxSize ∧
      (flushBufferToQueue maxSize blockNumber blocks blockBuffer).1.blocks.Perm (blocks ++
        (flushBufferToQueue maxSize blockNumber blocks blockBuffer).2.flatMap
          (newer blockNumber)) ↔
      Fits maxSize blockNumber blocks.length blockBuffer := by
  induction blockBuffer generalizing blocks with
  | nil => simp [flushBufferToQueue, Fits, h]
  | cons shard blockBuffer ih =>
    have hperm := foldl_orderedInsert_perm blocks (newer blockNumber shard)
    have hlength := hperm.length_eq
    rw [length_append] at hlength
    rw [flushBufferToQueue, flushOneShard, Fits]
    split_ifs
    · simp only [flatMap_cons, flatMap_nil, append_nil, h, true_and]
      refine ⟨fun hsame => ?_, fun hnil => by simp [hnil]⟩
      simpa using hsame.length_eq
    · simp only [flatMap_cons, ← append_assoc]
      rw [← (hperm.append_right _).congr_right]
      by_cases hfits : blocks.length + (newer blockNumber shard).length ≤ maxSize
      · rw [ih _ (by omega), hlength]
        exact (and_iff_right hfits).symm
      · refine iff_of_false (fun hboth => hfits ?_) fun hboth => hfits hboth.1
        have hlong := hboth.2.length_eq
        rw [length_append] at hlong
        omega

theorem usable_iff {operation} (h : s.blocks.length ≤ maxSize) :
    s.Usable maxSize operation ↔ s.Roomy maxSize operation := by
  cases operation with
  | push =>
    simp only [Usable, step, Roomy, and_true, iff_true]
    split <;> exact h
  | top isFlushBuffer =>
    cases isFlushBuffer with
    | true => exact flush_iff s.blocks s.blockBuffer h
    | false => simpa [Usable, step, Roomy] using h
  | pop =>
    have hpop : s.blocks.tail.length ≤ maxSize := by
      rw [length_tail]
      omega
    exact iff_of_true ⟨hpop, trivial⟩ trivial
  | clearExpiredQueueCache =>
    exact iff_of_true ⟨(dropWhile_suffix _).length_le.trans h, trivial⟩ trivial
  | clearFullQueueIfNotHas n =>
    simp only [Usable, step, Roomy]
    split
    next => simp
    next hkept =>
      cases hblocks : s.blocks with
      | nil => simp
      | cons block blocks =>
        simp only [hblocks, length_cons, head?_cons, Option.any_some, isNewerBlock,
          decide_eq_true_eq, not_and, not_lt, Option.mem_some_iff, exists_eq_left'] at h hkept ⊢
        omega

/-- Every operation of a run leaves the queue usable just when all shards that are taken fit. -/
theorem downloadingQueue_usable_iff (maxSize : Nat) (operations : List Operation) :
    Along (step maxSize) (Usable maxSize) {} operations ↔
      Along (step maxSize) (Roomy maxSize) {} operations := by
  have hnew : ({} : DownloadingQueue).blocks.length ≤ maxSize := Nat.zero_le _
  constructor
  · exact Along.of_invariant (P := fun s => s.blocks.length ≤ maxSize) (fun _ _ _ hop => hop.1)
      (fun _ _ hs hop => (usable_iff hs).mp hop) hnew
  · exact Along.of_invariant (P := fun s => s.blocks.length ≤ maxSize)
      (fun _ _ hs hop => ((usable_iff hs).mpr hop).1)
      (fun _ _ hs hop => (usable_iff hs).mpr hop) hnew

def shardOf (numbers : List Int) : BlockShard := numbers.map fun number => some ⟨number, 0⟩

/-- A shard of two blocks makes a queue for one too long, which is then not cleared, and a shard
that meets a full queue is lost. -/
theorem downloadingQueue_unusable :
    ¬ Along (step 1) (Usable 1) {} [.push (shardOf [2, 3]), .top true 0] ∧
      ([.push (shardOf [2, 3]), .top true 0, .clearFullQueueIfNotHas 1].foldl (step 1)
        {}).blocks = [⟨2, 0⟩, ⟨3, 0⟩] ∧
      ¬ Along (step 1) (Usable 1) {} [.push (shardOf [1]), .top true 0, .push (shardOf [2]),
        .top true 0] :=
  ⟨fun h => absurd h.2.1.1 (by decide), by decide,
    fun h => absurd h.2.2.2.1.2.length_eq (by decide)⟩

end DownloadingQueue

end Loki.Fisco
