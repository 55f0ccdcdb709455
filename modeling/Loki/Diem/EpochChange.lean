import Loki.Diem.ConsensusTypes

/-!
# Epoch changes

`types/src/epoch_change.rs`, `types/src/epoch_state.rs` and `types/src/waypoint.rs`.  An epoch
change proof is a list of ledger infos, each of which announces the validator set that has to
sign the next one.  The first of them is accepted by a trusted validator set or by a waypoint.

`Chained` is the meaning of a proof: the links from what is trusted to the validator set that
the last link announces.  It says nothing about the epoch numbers that the links announce,
because `EpochChangeProof::verify` does not look at them.
-/

namespace Loki.Diem

open Loki.Foundation

variable (C : Crypto)

variable (proof : EpochChangeProof) (verifier : Verifier) (li : LedgerInfo)

def Ledger2WaypointConverter.new : Ledger2WaypointConverter where
  epoch := li.epoch
  rootHash := li.commitInfo.executedStateId
  version := li.version
  timestampUsecs := li.commitInfo.timestampUsecs
  nextEpochState := li.nextEpochState

namespace Waypoint

def newAny : Waypoint where
  version := li.version
  value := C.hash (.ledger2Waypoint (Ledger2WaypointConverter.new li))

def newEpochBoundary : Except String Waypoint := do
  ensure (li.endsEpoch = true) "No validator set"
  return newAny C li

def verify (waypoint : Waypoint) (li : LedgerInfo) : Except String Unit := do
  ensure (li.version = waypoint.version)
    s!"Waypoint version mismatch: waypoint version = {waypoint.version}, given version = {li.version}"
  ensure ((newAny C li).value = waypoint.value)
    s!"Waypoint value mismatch: waypoint value = {waypoint.value}, given value = {(newAny C li).value}"

theorem verify_eq_ok {C waypoint} {li : LedgerInfo} {u} :
    waypoint.verify C li = .ok u ↔ newAny C li = waypoint := by
  simp only [verify, bind_eq_ok, ensure_eq_ok]
  constructor
  · rintro ⟨_, _, _⟩
    simp_all [newAny]
  · rintro rfl
    exact ⟨(), rfl, rfl⟩

end Waypoint

def EpochState.verify (state : EpochState) (li : LedgerInfoWithSignatures) :
    Except String Unit := do
  ensure (state.epoch = li.ledgerInfo.epoch)
    s!"LedgerInfo has unexpected epoch {li.ledgerInfo.epoch}, expected {state.epoch}"
  mapErr VerifyError.toString (li.verifySignatures C state.verifier)

/-- The implementations of the trait `Verifier`. -/
inductive Verifier where
  | waypoint (waypoint : Waypoint)
  | epochState (state : EpochState)

namespace Verifier

def verify : Verifier → LedgerInfoWithSignatures → Except String Unit
  | .waypoint w, li => w.verify C li.ledgerInfo
  | .epochState state, li => state.verify C li

def epochChangeVerificationRequired : Verifier → Nat → Bool
  | .waypoint _, _ => true
  | .epochState state, epoch => state.epoch < epoch

def isLedgerInfoStale : Verifier → LedgerInfo → Bool
  | .waypoint w, li => li.version < w.version
  | .epochState state, li => li.epoch < state.epoch

/-- A ledger info that matches the waypoint, or that a quorum of the validator set signed for
the epoch of that set. -/
def Accepts : Verifier → LedgerInfoWithSignatures → Prop
  | .waypoint w, li => Waypoint.newAny C li.ledgerInfo = w
  | .epochState state, li => state.epoch = li.ledgerInfo.epoch ∧ li.QuorumSigned C state.verifier

variable {C}

theorem verify_sound {verifier : Verifier} {li u}
    (h : verifier.verify C li = .ok u) : verifier.Accepts C li := by
  cases verifier with
  | waypoint => exact Waypoint.verify_eq_ok.mp h
  | epochState =>
    simp only [verify, EpochState.verify, bind_eq_ok, ensure_eq_ok, mapErr_eq_ok] at h
    obtain ⟨_, hepoch, hsigned⟩ := h
    exact ⟨hepoch, ValidatorVerifier.batchVerifyAggregatedSignatures_sound hsigned⟩

end Verifier

namespace EpochChangeProof

/-- The loop of `verify`. -/
def verifyChain : Verifier → List LedgerInfoWithSignatures → Except String Unit
  | _, [] => .ok ()
  | verifier, li :: rest => do
    verifier.verify C li
    let next ← okOr li.ledgerInfo.nextEpochState "LedgerInfo doesn't carry a ValidatorSet"
    verifyChain (.epochState next) rest

def freshLedgerInfos : List LedgerInfoWithSignatures :=
  proof.ledgerInfoWithSigs.dropWhile fun li => verifier.isLedgerInfoStale li.ledgerInfo

def verify : Except String LedgerInfoWithSignatures := do
  let last ← okOr proof.ledgerInfoWithSigs.getLast? "The EpochChangeProof is empty"
  ensure (verifier.isLedgerInfoStale last.ledgerInfo = false)
    "The EpochChangeProof is stale as our verifier is already ahead of the entire EpochChangeProof"
  verifyChain C verifier (proof.freshLedgerInfos verifier)
  return last

end EpochChangeProof

/-- The ledger infos lead from what is trusted to a validator set: each is accepted by what the
one before it announced. -/
inductive Chained : Verifier → List LedgerInfoWithSignatures → Verifier → Prop
  | nil (verifier : Verifier) : Chained verifier [] verifier
  | cons {verifier target : Verifier} {li : LedgerInfoWithSignatures} {next : EpochState}
      {rest : List LedgerInfoWithSignatures} (haccepts : verifier.Accepts C li)
      (hnext : li.ledgerInfo.nextEpochState = some next)
      (hrest : Chained (.epochState next) rest target) : Chained verifier (li :: rest) target

namespace EpochChangeProof

variable {C} {verifier : Verifier} {last : LedgerInfoWithSignatures}

theorem verifyChain_sound {lis : List LedgerInfoWithSignatures} {u}
    (hlast : lis.getLast? = some last) (h : verifyChain C verifier lis = .ok u) :
    ∃ next, last.ledgerInfo.nextEpochState = some next ∧
      Chained C verifier lis (.epochState next) := by
  induction lis generalizing verifier with
  | nil => simp at hlast
  | cons _ rest ih =>
    simp only [verifyChain, bind_eq_ok, okOr_eq_ok] at h
    obtain ⟨_, hverify, next, hnext, hrest⟩ := h
    have haccepts := Verifier.verify_sound hverify
    cases rest with
    | nil =>
      cases hlast
      exact ⟨next, hnext, .cons haccepts hnext (.nil _)⟩
    | cons =>
      obtain ⟨final, hfinal, hchain⟩ := ih (by simpa using hlast) hrest
      exact ⟨final, hfinal, .cons haccepts hnext hchain⟩

private theorem getLast?_dropWhile {α p} {l : List α} {a}
    (hlast : l.getLast? = some a) (ha : p a = false) : (l.dropWhile p).getLast? = some a := by
  induction l with
  | nil => simp at hlast
  | cons _ xs ih =>
    rw [List.dropWhile_cons]
    split
    · next hx =>
        cases xs with
        | nil =>
          rw [List.getLast?_singleton, Option.some.injEq] at hlast
          rw [hlast, ha] at hx
          cases hx
        | cons => exact ih (by simpa using hlast)
    · exact hlast

theorem verify_sound {proof : EpochChangeProof} (h : proof.verify C verifier = .ok last) :
    proof.ledgerInfoWithSigs.getLast? = some last ∧
      verifier.isLedgerInfoStale last.ledgerInfo = false ∧
      (proof.freshLedgerInfos verifier).getLast? = some last ∧
      ∃ next, last.ledgerInfo.nextEpochState = some next ∧
        Chained C verifier (proof.freshLedgerInfos verifier) (.epochState next) := by
  simp only [verify, bind_eq_ok, okOr_eq_ok, ensure_eq_ok, pure_eq_ok] at h
  obtain ⟨_, hlast, _, hfresh, _, hchain, rfl⟩ := h
  have hlast' : (proof.freshLedgerInfos verifier).getLast? = some _ :=
    getLast?_dropWhile hlast hfresh
  exact ⟨hlast, hfresh, hlast', verifyChain_sound hlast' hchain⟩

end EpochChangeProof

end Loki.Diem
