import Mathlib.Algebra.Order.Ring.Nat
import Mathlib.Data.List.Induction

/-!
# The payloads of a channel

`PayloadsBufferImpl` of `gossip/state/payloads_buffer.go`, and the loop that pops after each token.
Sequence numbers have 64 bits, and `next` wraps.  `Push` and `Pop` hold the mutex, so that a call is
one step.  Between the check of the channel and the send of `Push` a consumer can only take a token
that was there before.
-/

namespace Loki.Fabric

open List

structure Payload where
  seqNum : Nat
  data : List UInt8
  deriving DecidableEq

/-- `readyChan` is the number of tokens in the channel, which has room for one. -/
structure PayloadsBuffer where
  next : Nat
  buf : List Payload
  readyChan : Nat

namespace PayloadsBuffer

variable (b : PayloadsBuffer)

def get (seqNum : Nat) : Option Payload := b.buf.find? (·.seqNum = seqNum)

def send : Option PayloadsBuffer :=
  if b.readyChan < 1 then some { b with readyChan := b.readyChan + 1 } else none

/-- `Push`, with no result when the send blocks. -/
def push (payload : Payload) : Option PayloadsBuffer :=
  if payload.seqNum < b.next ∨ b.get payload.seqNum ≠ none then some b
  else if payload.seqNum = b.next ∧ b.readyChan = 0 then
    { b with buf := payload :: b.buf }.send
  else some { b with buf := payload :: b.buf }

def drainReadChannel : PayloadsBuffer := if b.buf = [] then { b with readyChan := 0 } else b

def pop : Option Payload × PayloadsBuffer :=
  match b.get b.next with
  | some result =>
    (some result, { b with
      buf := b.buf.filter (·.seqNum ≠ b.next)
      next := (b.next + 1) % 2 ^ 64 }.drainReadChannel)
  | none => (none, b)

end PayloadsBuffer

open PayloadsBuffer

/-- A buffer with its consumer, which is `popping` from a token on until it sees `nil`. -/
structure Delivery where
  buffer : PayloadsBuffer
  popping : Bool
  pushed : List Payload
  popped : List Payload

namespace Delivery

inductive Action where
  | push (payload : Payload)
  | receive
  | pop

/-- An action that cannot be taken changes nothing. -/
def step (s : Delivery) : Action → Delivery
  | .push payload =>
    match s.buffer.push payload with
    | some buffer => { s with buffer := buffer, pushed := s.pushed ++ [payload] }
    | none => s
  | .receive =>
    if s.popping = false ∧ 0 < s.buffer.readyChan then
      { s with buffer.readyChan := s.buffer.readyChan - 1, popping := true }
    else s
  | .pop =>
    if s.popping then
      match s.buffer.pop with
      | (some payload, buffer) => { s with buffer := buffer, popped := s.popped ++ [payload] }
      | (none, buffer) => { s with buffer := buffer, popping := false }
    else s

def run (next : UInt64) (actions : List Action) : Delivery :=
  actions.foldl step ⟨⟨next.toNat, [], 0⟩, false, [], []⟩

/-- The payload is the first that was pushed with its number. -/
def IsFirst (s : Delivery) (payload : Payload) : Prop :=
  s.pushed.find? (·.seqNum = payload.seqNum) = some payload

structure InOrder (next : UInt64) (s : Delivery) : Prop where
  consecutive : s.popped.map (·.seqNum) =
    (range s.popped.length).map fun i => (next.toNat + i) % 2 ^ 64
  first : next.toNat + s.popped.length ≤ 2 ^ 64 → ∀ payload ∈ s.popped, s.IsFirst payload
  unblocked : ∀ payload, (s.buffer.push payload).isSome
  awake : (s.buffer.get s.buffer.next).isSome → 0 < s.buffer.readyChan ∨ s.popping = true

structure Inv (next : UInt64) (s : Delivery) : Prop extends InOrder next s where
  next_eq : s.buffer.next = (next.toNat + s.popped.length) % 2 ^ 64
  stored : next.toNat + s.popped.length < 2 ^ 64 → ∀ seqNum, s.buffer.next ≤ seqNum →
    s.buffer.get seqNum = s.pushed.find? (·.seqNum = seqNum)

end Delivery

namespace PayloadsBuffer

variable {b b' : PayloadsBuffer} {payload : Payload}

theorem push_isSome (b : PayloadsBuffer) (payload) : (b.push payload).isSome := by
  unfold push send
  grind

/-- What is looked up is what was there before, and else the new payload. -/
theorem push_spec (h : b.push payload = some b') :
    b'.next = b.next ∧ b.readyChan ≤ b'.readyChan ∧
      (∀ seqNum, b.next ≤ seqNum →
        b'.get seqNum = (b.get seqNum).or ([payload].find? (·.seqNum = seqNum))) ∧
      ((b'.get b.next).isSome → (b.get b.next).isSome ∨ 0 < b'.readyChan) := by
  unfold push send at h
  split at h
  · cases h
    refine ⟨rfl, Nat.le_refl _, fun seqNum hle => ?_, .inl⟩
    by_cases heq : payload.seqNum = seqNum
    · cases hget : b.get seqNum <;> grind
    · simp [heq]
  · rename_i hnew
    have hnone : b.get payload.seqNum = none := by grind
    have hb : b'.next = b.next ∧ b'.buf = payload :: b.buf ∧ b.readyChan ≤ b'.readyChan ∧
        (payload.seqNum = b.next → 0 < b'.readyChan) := by grind
    obtain ⟨hnext, hbuf, hle, htoken⟩ := hb
    have hget : ∀ seqNum, b'.get seqNum =
        (b.get seqNum).or ([payload].find? (·.seqNum = seqNum)) := by
      intro seqNum
      by_cases heq : payload.seqNum = seqNum
      · rw [← heq, hnone]
        simp [PayloadsBuffer.get, hbuf]
      · simp [PayloadsBuffer.get, hbuf, heq]
    refine ⟨hnext, hle, fun seqNum _ => hget seqNum, fun hsome => ?_⟩
    by_cases heq : payload.seqNum = b.next
    · exact .inr (htoken heq)
    · exact .inl (by simpa [hget, heq] using hsome)

end PayloadsBuffer

namespace Delivery

variable {s : Delivery} {next : UInt64}

theorem Inv.push (h : Inv next s) (payload) : Inv next (s.step (.push payload)) := by
  obtain ⟨b', hpush⟩ := Option.isSome_iff_exists.mp (push_isSome s.buffer payload)
  obtain ⟨hnext, hle, hget, htoken⟩ := push_spec hpush
  simp only [step, hpush]
  constructor
  case next_eq => exact hnext.trans h.next_eq
  case stored =>
    intro hlt seqNum hge
    rw [hnext] at hge
    rw [find?_append, ← h.stored hlt seqNum hge, hget seqNum hge]
  case toInOrder =>
    refine ⟨h.consecutive, fun hle p hp => ?_, push_isSome b', fun hsome => ?_⟩
    · rw [IsFirst, find?_append, h.first hle p hp]
      rfl
    · rw [hnext] at hsome
      rcases htoken hsome with hsome | hpos
      · exact (h.awake hsome).imp_left fun hpos => Nat.lt_of_lt_of_le hpos hle
      · exact .inl hpos

theorem Inv.popSome (h : Inv next s) (hpopping : s.popping = true) {payload : Payload}
    (hget : s.buffer.get s.buffer.next = some payload) : Inv next (s.step .pop) := by
  have hseqNum : payload.seqNum = s.buffer.next := by simpa using find?_some hget
  have hnext := h.next_eq
  have hpop : s.step .pop = { s with
      buffer := { s.buffer with
        buf := s.buffer.buf.filter (·.seqNum ≠ s.buffer.next)
        next := (s.buffer.next + 1) % 2 ^ 64
        readyChan := (s.step .pop).buffer.readyChan }
      popped := s.popped ++ [payload] } := by
    simp only [step, hpopping, if_true, PayloadsBuffer.pop, hget, drainReadChannel]
    split <;> rfl
  rw [hpop]
  constructor
  case next_eq =>
    simp only [length_append, length_singleton]
    omega
  case stored =>
    simp only [length_append, length_singleton]
    intro hlt seqNum hge
    have hgt : s.buffer.next < seqNum := by omega
    rw [← h.stored (by omega) seqNum (Nat.le_of_lt hgt), PayloadsBuffer.get, find?_filter]
    congr
    funext p
    by_cases heq : p.seqNum = seqNum <;> simp [heq, Nat.ne_of_gt hgt]
  case toInOrder =>
    refine ⟨?_, fun hle p hp => ?_, push_isSome _, fun _ => .inr hpopping⟩
    · simp [range_succ, h.consecutive, hseqNum, hnext]
    · simp only [length_append, length_singleton] at hle
      rcases mem_append.mp hp with hp | hp
      · exact h.first (by omega) p hp
      · rw [mem_singleton.mp hp, IsFirst, hseqNum, ← h.stored (by omega) _ (Nat.le_refl _), hget]

theorem Inv.step (h : Inv next s) (action) : Inv next (s.step action) := by
  cases action with
  | push payload => exact h.push payload
  | receive =>
    simp only [Delivery.step]
    split
    · exact { h with unblocked := push_isSome _, awake := fun _ => .inr rfl }
    · exact h
  | pop =>
    by_cases hpopping : s.popping = true
    · cases hget : s.buffer.get s.buffer.next with
      | none =>
        simp only [Delivery.step, hpopping, if_true, PayloadsBuffer.pop, hget]
        exact { h with awake := by simp [hget] }
      | some => exact h.popSome hpopping hget
    · simpa only [Delivery.step, if_neg hpopping] using h

/-- After any interleaving of pushers and one consumer. -/
theorem payloads_inOrder (next : UInt64) (actions : List Action) :
    InOrder next (run next actions) := by
  have hinv : Inv next (run next actions) := by
    induction actions using reverseRecOn with
    | nil =>
      constructor
      case toInOrder => constructor <;> simp [run, PayloadsBuffer.get, push_isSome]
      case next_eq => exact (Nat.mod_eq_of_lt next.toNat_lt).symm
      case stored => simp [run, PayloadsBuffer.get]
    | append_singleton actions action ih =>
      rw [run, foldl_append]
      exact ih.step action
  exact hinv.toInOrder

/-- The number 0 is thrown away before the counter wraps to it, and then taken. -/
def wrapping : List Action :=
  [.push ⟨0, [1]⟩, .push ⟨2 ^ 64 - 1, []⟩, .receive, .pop, .push ⟨0, [2]⟩, .pop]

theorem payloads_not_first : ∃ payload ∈ (run 0xFFFFFFFFFFFFFFFF wrapping).popped,
    ¬ (run 0xFFFFFFFFFFFFFFFF wrapping).IsFirst payload := by
  refine ⟨⟨0, [2]⟩, by decide +kernel, ?_⟩
  unfold IsFirst
  decide +kernel

end Delivery

end Loki.Fabric
