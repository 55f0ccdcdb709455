import Mathlib.Algebra.Order.Ring.Nat
import Mathlib.Data.Multiset.Lattice
import Mathlib.Order.Lattice.Nat
import Mathlib.Order.Nat

/-!
# The block cutter

`orderer/common/blockcutter`: the receiver that cuts ordered messages into batches.  It reads the
configuration at each call, so that a call carries the batch size in force.
-/

namespace Loki.Fabric.BlockCutter

open List

structure Envelope where
  payload : List UInt8
  signature : List UInt8

def Envelope.messageSizeBytes (message : Envelope) : Nat :=
  message.payload.length + message.signature.length

structure BatchSize where
  maxMessageCount : Nat
  preferredMaxBytes : Nat

structure Receiver where
  pendingBatch : List Envelope := []
  pendingBatchSizeBytes : Nat := 0

namespace Receiver

variable (r : Receiver)

def cut : List Envelope × Receiver := (r.pendingBatch, {})

def enqueue (msg : Envelope) : Receiver where
  pendingBatch := r.pendingBatch ++ [msg]
  pendingBatchSizeBytes := r.pendingBatchSizeBytes + msg.messageSizeBytes

variable (batchSize : BatchSize) (msg : Envelope)

/-- The pending batch is cut if the message would overflow it. -/
def cutOverflow : List (List Envelope) × Receiver :=
  if batchSize.preferredMaxBytes < r.pendingBatchSizeBytes + msg.messageSizeBytes then
    ([r.cut.1], r.cut.2)
  else ([], r)

/-- `Ordered`: the batches that are cut, whether messages are pending, and the receiver. -/
def ordered : List (List Envelope) × Bool × Receiver :=
  if batchSize.preferredMaxBytes < msg.messageSizeBytes then
    -- a message larger than the preferred size is isolated
    if 0 < r.pendingBatch.length then ([r.cut.1, [msg]], false, r.cut.2)
    else ([[msg]], false, r)
  else
    let (messageBatches, r) := r.cutOverflow batchSize msg
    let r := r.enqueue msg
    if batchSize.maxMessageCount ≤ r.pendingBatch.length then
      (messageBatches ++ [r.cut.1], false, r.cut.2)
    else (messageBatches, true, r)

end Receiver

/-! ### Batches of arrivals -/

/-- A message and the batch size in force when it arrived. -/
abbrev Arrival := BatchSize × Envelope

abbrev messages (cuts : List (List Arrival)) : List (List Envelope) := cuts.map (·.map Prod.snd)

variable (batch : List Arrival)

def total : Nat := (batch.map (·.2.messageSizeBytes)).sum

/-- The receiver with the arrivals of its pending batch. -/
def pending : Receiver where
  pendingBatch := batch.map Prod.snd
  pendingBatchSizeBytes := total batch

/-- The batch is within the size in force when its last message arrived. -/
def InSize : Prop :=
  ∀ a ∈ batch.getLast?, total batch ≤ a.1.preferredMaxBytes

structure Fits (m : Nat) (batch : List Arrival) : Prop where
  count : batch.length ≤ max 1 m
  size : InSize batch ∨ batch.length = 1

/-- The batch can be pending while no more than `m` messages are put into one. -/
structure Pends (m : Nat) (batch : List Arrival) : Prop where
  count : batch.length ≤ m - 1
  size : InSize batch

variable {m : Nat} {batch : List Arrival} {batchSize : BatchSize}

theorem Pends.fits (h : Pends m batch) : Fits m batch := ⟨h.count.trans (by omega), .inl h.size⟩

theorem Pends.nil : Pends m [] := ⟨Nat.zero_le _, by simp [InSize]⟩

theorem cutOverflow_spec (msg) (h : Pends m batch)
    (hsize : msg.messageSizeBytes ≤ batchSize.preferredMaxBytes) :
    ∃ cuts rest, (pending batch).cutOverflow batchSize msg = (messages cuts, pending rest) ∧
      batch = cuts.flatten ++ rest ∧ cuts.length ≤ 1 ∧ [] ∉ cuts ∧ (∀ c ∈ cuts, Fits m c) ∧
      rest.length ≤ m - 1 ∧ total rest + msg.messageSizeBytes ≤ batchSize.preferredMaxBytes := by
  rw [Receiver.cutOverflow]
  split
  next hoverflow =>
    refine ⟨[batch], [], rfl, by simp, le_rfl, ?_, by simpa using h.fits, Nat.zero_le _,
      by simpa [total]⟩
    intro hnil
    obtain rfl := mem_singleton.1 hnil
    -- an empty batch is not cut, since the message alone is within the size
    simp only [pending, total, map_nil, sum_nil] at hoverflow
    omega
  next hroom =>
    exact ⟨[], batch, rfl, rfl, Nat.zero_le _, by simp, by simp, h.count, Nat.le_of_not_lt hroom⟩

theorem ordered_spec (msg) (hm : batchSize.maxMessageCount ≤ m) (h : Pends m batch) :
    ∃ cuts rest, (pending batch).ordered batchSize msg =
        (messages cuts, !rest.isEmpty, pending rest) ∧
      batch ++ [(batchSize, msg)] = cuts.flatten ++ rest ∧ cuts.length ≤ 2 ∧ [] ∉ cuts ∧
      (∀ c ∈ cuts, Fits m c) ∧ Pends m rest := by
  rw [Receiver.ordered]
  split
  next hlarge =>
    have hsingle : Fits m [(batchSize, msg)] := ⟨le_max_left _ _, .inr rfl⟩
    cases batch with
    | nil =>
      exact ⟨[[(batchSize, msg)]], [], by simp [pending, total], by simp, by simp, by simp,
        by simpa using hsingle, .nil⟩
    | cons a batch =>
      exact ⟨[a :: batch, [(batchSize, msg)]], [], by simp [pending, Receiver.cut, total], by simp,
        le_rfl, by simp, by simpa using ⟨h.fits, hsingle⟩, .nil⟩
  next hsmall =>
    obtain ⟨cuts, rest, heq, rfl, hlength, hne, hfits, hcount, hsize⟩ :=
      cutOverflow_spec msg h (Nat.le_of_not_lt hsmall)
    have hin : InSize (rest ++ [(batchSize, msg)]) := by simpa [InSize, total] using hsize
    have hpending : (pending rest).enqueue msg = pending (rest ++ [(batchSize, msg)]) := by
      simp [pending, Receiver.enqueue, total]
    simp only [heq, hpending]
    split
    next hfull =>
      refine ⟨cuts ++ [rest ++ [(batchSize, msg)]], [], by simp [Receiver.cut, pending, total],
        by simp, ?_, by simpa, forall_mem_append.2 ⟨hfits, forall_mem_singleton.2 ⟨?_, .inl hin⟩⟩,
        .nil⟩
      · rw [length_append, length_singleton]
        omega
      · rw [length_append, length_singleton]
        omega
    next hroom =>
      refine ⟨cuts, rest ++ [(batchSize, msg)], by simp, by simp, by omega, hne, hfits, ?_, hin⟩
      simp only [pending, map_append, length_append, length_map] at hroom ⊢
      omega

/-! ### Runs -/

inductive Call where
  | ordered (batchSize : BatchSize) (msg : Envelope)
  | cut

/-- The batches returned so far and the receiver, after one more call. -/
def step (s : List (List Envelope) × Receiver) : Call → List (List Envelope) × Receiver
  | .ordered batchSize msg =>
    let (messageBatches, _, r) := s.2.ordered batchSize msg
    (s.1 ++ messageBatches, r)
  | .cut => (s.1 ++ [s.2.cut.1], s.2.cut.2)

variable (calls : List Call)

def run : List (List Envelope) × Receiver := calls.foldl step ([], {})

def arrivals : List Arrival := calls.filterMap fun
  | .ordered batchSize msg => some (batchSize, msg)
  | .cut => none

def largestCount : Nat :=
  ((arrivals calls).map (·.1.maxMessageCount) : Multiset Nat).sup

theorem maxMessageCount_le {calls a} (h : a ∈ arrivals calls) :
    a.1.maxMessageCount ≤ largestCount calls :=
  Multiset.le_sup (Multiset.mem_coe.2 (mem_map_of_mem h))

theorem run_spec (calls) (hm : ∀ a ∈ arrivals calls, a.1.maxMessageCount ≤ m) :
    ∃ cuts rest, run calls = (messages cuts, pending rest) ∧
      arrivals calls = cuts.flatten ++ rest ∧ (∀ c ∈ cuts, Fits m c) ∧ Pends m rest := by
  induction calls using reverseRecOn with
  | nil => exact ⟨[], [], rfl, rfl, by simp, .nil⟩
  | append_singleton calls call ih =>
    simp only [arrivals, filterMap_append, forall_mem_append] at hm
    obtain ⟨cuts, rest, hrun, harrivals, hfits, hpends⟩ := ih hm.1
    rw [run, foldl_append, ← run, hrun, arrivals, filterMap_append, ← arrivals, harrivals]
    cases call with
    | cut =>
      exact ⟨cuts ++ [rest], [], by simp [step, Receiver.cut, pending, total], by simp,
        forall_mem_append.2 ⟨hfits, forall_mem_singleton.2 hpends.fits⟩, .nil⟩
    | ordered batchSize msg =>
      obtain ⟨cuts', rest', hordered, hflatten, -, -, hfits', hpends'⟩ :=
        ordered_spec msg (by simpa using hm.2) hpends
      exact ⟨cuts ++ cuts', rest', by simp [step, hordered], by simp [hflatten],
        forall_mem_append.2 ⟨hfits, hfits'⟩, hpends'⟩

/-- The batches returned and the pending one are the messages in the order of their arrival, each
batch within the limits, and a further call returns at most two batches, none of them empty, and
says whether messages are pending. -/
theorem run_batches (calls : List Call) :
    (∃ cuts rest, run calls = (messages cuts, pending rest) ∧
      arrivals calls = cuts.flatten ++ rest ∧ ∀ c ∈ cuts, Fits (largestCount calls) c) ∧
    ∀ batchSize msg messageBatches isPending r,
      (run calls).2.ordered batchSize msg = (messageBatches, isPending, r) →
        [] ∉ messageBatches ∧ messageBatches.length ≤ 2 ∧ (isPending ↔ r.pendingBatch ≠ []) := by
  constructor
  · obtain ⟨cuts, rest, hrun, harrivals, hfits, -⟩ := run_spec calls fun _ => maxMessageCount_le
    exact ⟨cuts, rest, hrun, harrivals, hfits⟩
  · intro batchSize msg messageBatches isPending r hordered
    obtain ⟨_, rest, hrun, -, -, hpends⟩ := run_spec calls fun _ h =>
      (maxMessageCount_le h).trans (le_max_left _ batchSize.maxMessageCount)
    obtain ⟨cuts, rest, hspec, -, hlength, hne, -⟩ := ordered_spec msg (le_max_right _ _) hpends
    rw [hrun, hspec] at hordered
    cases hordered
    refine ⟨by simpa using hne, by simpa using hlength, ?_⟩
    cases rest with
    | nil | cons => simp [pending]

end Loki.Fabric.BlockCutter
