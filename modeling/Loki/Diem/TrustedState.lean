import Loki.Diem.EpochChange

/-!
# The light client

`types/src/trusted_state.rs`.  A light client trusts a waypoint or the validator set of an epoch,
and moves forward by state proofs: an epoch change proof, the latest ledger info of the server
and a proof that the transaction accumulator was only appended to.

`Ratcheted` is what one accepted proof should give.  The chain of signatures and the accumulator
always do.  That the epoch does not go back depends on what the last ledger info of the proof
announces, since nothing compares the announced epoch with the trusted one.
-/

namespace Loki.Diem

open Loki.Foundation TransactionAccumulatorSummary EpochChangeProof
open Waypoint (newAny)

inductive TrustedState where
  | epochWaypoint (waypoint : Waypoint)
  | epochState (waypoint : Waypoint) (state : EpochState)
      (accumulator : TransactionAccumulatorSummary)
  deriving DecidableEq

inductive TrustedStateChange where
  | version (newState : TrustedState)
  | epoch (newState : TrustedState) (latestEpochChangeLi : LedgerInfoWithSignatures)
  | noChange
  deriving DecidableEq

structure StateProof where
  latestLi : LedgerInfoWithSignatures
  epochChanges : EpochChangeProof
  consistencyProof : AccumulatorConsistencyProof
  deriving DecidableEq

def TrustedStateChange.newState? : TrustedStateChange → Option TrustedState
  | .version newState => some newState
  | .epoch newState _ => some newState
  | .noChange => none

namespace TrustedState

def waypoint : TrustedState → Waypoint
  | .epochWaypoint w => w
  | .epochState w _ _ => w

def version (state : TrustedState) : Nat := state.waypoint.version

def epochState? : TrustedState → Option EpochState
  | .epochWaypoint _ => none
  | .epochState _ state _ => some state

/-- `impl Verifier for TrustedState`. -/
def verifier : TrustedState → Verifier
  | .epochWaypoint w => .waypoint w
  | .epochState _ state _ => .epochState state

variable (C : Crypto) {last li : LedgerInfoWithSignatures} {next : EpochState}
  {accumulator : TransactionAccumulatorSummary}

/-- The accumulator to extend: the trusted one, or an initial one given by the caller that is
checked against the first ledger info of the proof. -/
def currAccumulator (state : TrustedState) (epochChanges : EpochChangeProof)
    (initialAccumulator : Option TransactionAccumulatorSummary) :
    Outcome TransactionAccumulatorSummary :=
  match state with
  | .epochWaypoint _ => do
    let accumulator ← okOr initialAccumulator (.panic
      "Client must provide an initial untrusted accumulator when verifying from a waypoint")
    let waypointLi ← okOr epochChanges.ledgerInfoWithSigs.head?
      (.error "Empty epoch change proof")
    mapErr .error
      (verifyConsistency accumulator waypointLi.ledgerInfo)
    return accumulator
  | .epochState _ _ accumulator => .ok accumulator

def verifiedLedgerInfo (proof : StateProof) (epochChangeLi : LedgerInfoWithSignatures)
    (newEpochState : EpochState) : Except String LedgerInfoWithSignatures :=
  if epochChangeLi = proof.latestLi then
    .ok proof.latestLi
  else if proof.latestLi.ledgerInfo.epoch = newEpochState.epoch then do
    newEpochState.verify C proof.latestLi
    return proof.latestLi
  else if newEpochState.epoch < proof.latestLi.ledgerInfo.epoch ∧
      proof.epochChanges.more = true then
    .ok epochChangeLi
  else
    .error "Inconsistent epoch change proof and latest ledger info"

def verifyAndRatchet (state : TrustedState) (proof : StateProof)
    (initialAccumulator : Option TransactionAccumulatorSummary) : Outcome TrustedStateChange := do
  let latestLi := proof.latestLi.ledgerInfo
  ensure (state.version ≤ latestLi.version) (.error
    s!"The target latest ledger info version is stale ({latestLi.version}) and behind our current trusted version ({state.version})")
  let accumulator ← state.currAccumulator proof.epochChanges initialAccumulator
  if state.verifier.epochChangeVerificationRequired latestLi.commitInfo.nextBlockEpoch then
    let epochChangeLi ← mapErr .error (proof.epochChanges.verify C state.verifier)
    let newEpochState ← okOr epochChangeLi.ledgerInfo.nextEpochState (.error
      "A valid EpochChangeProof will never return a non-epoch change ledger info")
    let verifiedLi ← mapErr .error (verifiedLedgerInfo C proof epochChangeLi newEpochState)
    let newAccumulator ← accumulator.tryExtendWithProof C proof.consistencyProof
      verifiedLi.ledgerInfo
    return .epoch
      (.epochState (newAny C verifiedLi.ledgerInfo) newEpochState newAccumulator)
      epochChangeLi
  else
    match state with
    | .epochWaypoint _ =>
      .error (.error "EpochWaypoint can only verify an epoch change ledger info")
    | .epochState currWaypoint currEpochState _ =>
      let newWaypoint := newAny C latestLi
      if newWaypoint.version = currWaypoint.version then do
        ensure (newWaypoint = currWaypoint)
          (.error "LedgerInfo doesn't match verified state")
        return .noChange
      else do
        mapErr .error (currEpochState.verify C proof.latestLi)
        let newAccumulator ← accumulator.tryExtendWithProof C proof.consistencyProof latestLi
        return .version (.epochState newWaypoint currEpochState newAccumulator)

/-- The new state stands at a ledger info `li` that is reached from the old state by `links`:
`li` is the last link, or is signed in the epoch that the last link announces. -/
structure Reached (old new : TrustedState) (li : LedgerInfoWithSignatures)
    (links : List LedgerInfoWithSignatures) (state : EpochState)
    (accumulator : TransactionAccumulatorSummary) : Prop where
  new_eq : new = .epochState (newAny C li.ledgerInfo) state accumulator
  chained : Chained C old.verifier links (.epochState state)
  accepted : links.getLast? = some li ∨ (Verifier.epochState state).Accepts C li
  accumulator_eq : AgreesWith accumulator li.ledgerInfo

variable (epoch : Nat) (announced : Nat) (old new : TrustedState)

def EpochLe : Prop :=
  ∀ state ∈ old.epochState?, ∃ state' ∈ new.epochState?, state.epoch ≤ state'.epoch

structure Ratcheted (old new : TrustedState) : Prop where
  version_le : old.version ≤ new.version
  epoch_le : EpochLe old new
  reached : ∃ li links state accumulator, Reached C old new li links state accumulator

/-- The proof announces no epoch below the trusted one, and where the client falls back to the
epoch change ledger info, that one is not older than the trusted version. -/
def Announces (proof : StateProof) : Prop :=
  old.verifier.epochChangeVerificationRequired
      proof.latestLi.ledgerInfo.commitInfo.nextBlockEpoch = true →
    ∀ last ∈ proof.epochChanges.ledgerInfoWithSigs.getLast?,
      ∀ announced ∈ last.ledgerInfo.nextEpochState,
        (∀ state ∈ old.epochState?, state.epoch ≤ announced.epoch) ∧
        (last ≠ proof.latestLi → proof.latestLi.ledgerInfo.epoch ≠ announced.epoch →
          old.version ≤ last.ledgerInfo.version)

section

variable (old : TrustedState) (proof : StateProof) (change : TrustedStateChange)

structure EpochChanged
    (last li : LedgerInfoWithSignatures) (next : EpochState)
    (accumulator : TransactionAccumulatorSummary) : Prop where
  required : old.verifier.epochChangeVerificationRequired
    proof.latestLi.ledgerInfo.commitInfo.nextBlockEpoch = true
  verified : proof.epochChanges.verify C old.verifier = .ok last
  announced : last.ledgerInfo.nextEpochState = some next
  target : verifiedLedgerInfo C proof last next = .ok li
  accumulator_eq : AgreesWith accumulator li.ledgerInfo
  change_eq : change =
    .epoch (.epochState (newAny C li.ledgerInfo) next accumulator) last

structure VersionChanged (state : EpochState)
    (accumulator : TransactionAccumulatorSummary) : Prop where
  not_required : old.verifier.epochChangeVerificationRequired
    proof.latestLi.ledgerInfo.commitInfo.nextBlockEpoch = false
  old_eq : old.verifier = .epochState state ∧ old.epochState? = some state
  accepted : (Verifier.epochState state).Accepts C proof.latestLi
  accumulator_eq :
    AgreesWith accumulator proof.latestLi.ledgerInfo
  change_eq : change = .version
    (.epochState (newAny C proof.latestLi.ledgerInfo) state accumulator)

end

/-- One accepted proof that meets `Announces`. -/
def RatchetStep : Prop :=
  ∃ proof initial change, old.verifyAndRatchet C proof initial = .ok change ∧
    Announces old proof ∧ new = change.newState?.getD old

variable {C} {old new : TrustedState} {proof : StateProof}
  {initial : Option TransactionAccumulatorSummary} {change : TrustedStateChange}

/-- The target is the latest ledger info, then accepted by the proof or by the new validator
set, or the epoch change ledger info, then neither is the case. -/
theorem verifiedLedgerInfo_cases (h : verifiedLedgerInfo C proof last next = .ok li) :
    (li = proof.latestLi ∧ (last = li ∨ (Verifier.epochState next).Accepts C li)) ∨
      (li = last ∧ last ≠ proof.latestLi ∧
        proof.latestLi.ledgerInfo.epoch ≠ next.epoch) := by
  unfold verifiedLedgerInfo at h
  split at h
  · next hsame =>
      cases h
      exact .inl ⟨rfl, .inl hsame⟩
  · next hne =>
      split at h
      · simp only [bind_eq_ok, pure_eq_ok] at h
        obtain ⟨_, hverify, rfl⟩ := h
        have haccepts : (Verifier.epochState next).verify C proof.latestLi = .ok () := hverify
        exact .inl ⟨rfl, .inr (Verifier.verify_sound haccepts)⟩
      · next hepoch =>
          split at h
          · cases h
            exact .inr ⟨rfl, hne, hepoch⟩
          · cases h

theorem verifyAndRatchet_cases (h : old.verifyAndRatchet C proof initial = .ok change) :
    old.version ≤ proof.latestLi.ledgerInfo.version ∧
      ((∃ last li next accumulator,
          EpochChanged C old proof change last li next accumulator) ∨
        (∃ state accumulator, VersionChanged C old proof change state accumulator) ∨
        change = .noChange) := by
  simp only [verifyAndRatchet, bind_eq_ok, ensure_eq_ok] at h
  obtain ⟨_, hversion, _, -, h⟩ := h
  refine ⟨hversion, ?_⟩
  split at h
  · next hrequired =>
      simp only [bind_eq_ok, mapErr_eq_ok, okOr_eq_ok, pure_eq_ok] at h
      obtain ⟨last, hlast, next, hnext, li, htarget, extended, hextend, rfl⟩ := h
      have hagree := (tryExtendWithProof_spec hextend).2
      exact .inl ⟨last, li, next, extended, hrequired, hlast, hnext, htarget, hagree, rfl⟩
  · next hnot =>
      refine .inr ?_
      cases old with
      | epochWaypoint => cases h
      | epochState _ state =>
        simp only at h
        split at h
        · simp only [bind_eq_ok, pure_eq_ok] at h
          obtain ⟨_, -, rfl⟩ := h
          exact .inr rfl
        · simp only [bind_eq_ok, mapErr_eq_ok, pure_eq_ok] at h
          obtain ⟨_, hverify, extended, hextend, rfl⟩ := h
          have haccepts : (Verifier.epochState state).verify C proof.latestLi = .ok () := hverify
          have hagree := (tryExtendWithProof_spec hextend).2
          exact .inl ⟨state, extended, by simpa using hnot, ⟨rfl, rfl⟩,
            Verifier.verify_sound haccepts, hagree, rfl⟩

theorem EpochChanged.announces_iff (h : EpochChanged C old proof change last li next accumulator) :
    Announces old proof ↔
      (∀ state ∈ old.epochState?, state.epoch ≤ next.epoch) ∧
      (last ≠ proof.latestLi → proof.latestLi.ledgerInfo.epoch ≠ next.epoch →
        old.version ≤ last.ledgerInfo.version) := by
  have hlast := (verify_sound h.verified).1
  simp [Announces, h.required, hlast, h.announced]

theorem EpochChanged.ratcheted_iff (hversion : old.version ≤ proof.latestLi.ledgerInfo.version)
    (h : EpochChanged C old proof change last li next accumulator) :
    Ratcheted C old (.epochState (newAny C li.ledgerInfo) next accumulator) ↔
      Announces old proof := by
  rw [h.announces_iff]
  constructor
  · intro hsound
    refine ⟨fun state hstate => ?_, fun hne hepoch => ?_⟩
    · obtain ⟨_, hstate', hle⟩ := hsound.epoch_le state hstate
      cases hstate'
      exact hle
    · rcases verifiedLedgerInfo_cases h.target with ⟨rfl, hlast | haccepts⟩ | ⟨rfl, -, -⟩
      · exact absurd hlast hne
      · exact absurd haccepts.1.symm hepoch
      · exact hsound.version_le
  · rintro ⟨hepoch, hfallback⟩
    obtain ⟨-, -, hlast, state, hstate, hchain⟩ := verify_sound h.verified
    have hnext : state = next := Option.some.inj (hstate.symm.trans h.announced)
    refine ⟨?_, fun state hstate => ⟨next, rfl, hepoch state hstate⟩, ?_⟩
    · rcases verifiedLedgerInfo_cases h.target with ⟨rfl, -⟩ | ⟨rfl, hne, hne'⟩
      · exact hversion
      · exact hfallback hne hne'
    · refine ⟨li, _, next, accumulator, rfl, hnext ▸ hchain, ?_, h.accumulator_eq⟩
      rcases verifiedLedgerInfo_cases h.target with ⟨rfl, rfl | haccepts⟩ | ⟨rfl, -, -⟩
      · exact .inl hlast
      · exact .inr haccepts
      · exact .inl hlast

theorem VersionChanged.ratcheted {state}
    (hversion : old.version ≤ proof.latestLi.ledgerInfo.version)
    (h : VersionChanged C old proof change state accumulator) :
    Ratcheted C old (.epochState (newAny C proof.latestLi.ledgerInfo) state accumulator) := by
  refine ⟨hversion, ?_, _, [], state, accumulator, rfl, ?_, .inr h.accepted, h.accumulator_eq⟩
  · rw [EpochLe, h.old_eq.2]
    rintro _ hstate'
    cases hstate'
    exact ⟨state, rfl, le_rfl⟩
  · rw [h.old_eq.1]
    exact .nil _

theorem ratcheted_iff_announces (h : old.verifyAndRatchet C proof initial = .ok change)
    (hnew : change.newState? = some new) : Ratcheted C old new ↔ Announces old proof := by
  obtain ⟨hversion, hcases⟩ := verifyAndRatchet_cases h
  rcases hcases with ⟨_, _, _, _, hepoch⟩ | ⟨_, _, hsame⟩ | rfl
  · rw [hepoch.change_eq] at hnew
    cases hnew
    exact hepoch.ratcheted_iff hversion
  · have hvacuous : Announces old proof := fun hrequired => by
      rw [hsame.not_required] at hrequired
      cases hrequired
    rw [hsame.change_eq] at hnew
    cases hnew
    exact iff_of_true (hsame.ratcheted hversion) hvacuous
  · cases hnew

/-! ## Runs of the light client -/

theorem EpochLe.refl (state) : EpochLe state state :=
  fun epochState h => ⟨epochState, h, le_rfl⟩

theorem EpochLe.trans {mid} (h : EpochLe old mid) (h' : EpochLe mid new) : EpochLe old new := by
  intro state hstate
  obtain ⟨state', hstate', hle⟩ := h state hstate
  obtain ⟨state'', hstate'', hle'⟩ := h' state' hstate'
  exact ⟨state'', hstate'', hle.trans hle'⟩

theorem RatchetStep.mono (h : RatchetStep C old new) :
    old.version ≤ new.version ∧ EpochLe old new := by
  obtain ⟨_, _, change, haccepted, hannounces, rfl⟩ := h
  cases hnew : change.newState? with
  | none => exact ⟨le_rfl, EpochLe.refl old⟩
  | some =>
    have hsound := (ratcheted_iff_announces haccepted hnew).mpr hannounces
    exact ⟨hsound.version_le, hsound.epoch_le⟩

theorem ratchets_mono (h : Relation.ReflTransGen (RatchetStep C) old new) :
    old.version ≤ new.version ∧ EpochLe old new := by
  induction h with
  | refl => exact ⟨le_rfl, EpochLe.refl old⟩
  | tail _ hstep ih =>
    have hmono := hstep.mono
    exact ⟨ih.1.trans hmono.1, ih.2.trans hmono.2⟩

/-! ## The exact condition -/

/-- A new state is a sound move exactly when the proof announces no lower epoch, and runs of
such moves go forward only. -/
theorem verifyAndRatchet_sound_iff (C : Crypto) :
    (∀ (old : TrustedState) (proof : StateProof)
      (initial : Option TransactionAccumulatorSummary) (change : TrustedStateChange)
      (new : TrustedState), old.verifyAndRatchet C proof initial = .ok change →
        change.newState? = some new → (Ratcheted C old new ↔ Announces old proof)) ∧
    (∀ old new : TrustedState, Relation.ReflTransGen (RatchetStep C) old new →
      old.version ≤ new.version ∧ EpochLe old new) :=
  ⟨fun _ _ _ _ _ haccepted hnew => ratcheted_iff_announces haccepted hnew,
    fun _ _ hrun => ratchets_mono hrun⟩

/-! A client inside epoch 5 at version 0, whose only validator signs one epoch change. -/

def clientAt : TrustedState :=
  .epochState { version := 0, value := 0 } { epoch := epoch, verifier := .sole }
    { frozenSubtreeRoots := [9], numLeaves := 1, rootHash := 9 }

def signedLi (next : Option EpochState) : LedgerInfoWithSignatures where
  ledgerInfo := {
    commitInfo := {
      BlockInfo.empty with epoch := epoch, executedStateId := 9, nextEpochState := next }
    consensusDataHash := 0 }
  signatures := (∅ : BTreeMap AccountAddress Signature).insert 1 7

def changeTo : LedgerInfoWithSignatures :=
  signedLi 5 (some { epoch := announced, verifier := .sole })

/-- Validator set of epoch 5 announces `announced`, while the server is at epoch 7 already. -/
def proofTo : StateProof where
  latestLi := signedLi 7 none
  epochChanges := { ledgerInfoWithSigs := [changeTo announced], more := true }
  consistencyProof := { subtrees := [] }

theorem verifyAndRatchet_proofTo_six :
    (clientAt 5).verifyAndRatchet .concrete (proofTo 6) none =
      .ok (.epoch (clientAt 6) (changeTo 6)) := by
  rfl

theorem announces_proofTo_six : Announces (clientAt 5) (proofTo 6) := by
  simp [Announces, clientAt, proofTo, epochState?, changeTo, signedLi, LedgerInfo.nextEpochState,
    version, waypoint]

theorem verifyAndRatchet_sound_iff_six :
    Ratcheted .concrete (clientAt 5) (clientAt 6) ∧ EpochLe (clientAt 5) (clientAt 6) :=
  ⟨((verifyAndRatchet_sound_iff .concrete).1 _ _ _ _ _ verifyAndRatchet_proofTo_six rfl).mpr
      announces_proofTo_six,
    ((verifyAndRatchet_sound_iff .concrete).2 _ _ (.single ⟨_, _, _,
      verifyAndRatchet_proofTo_six, announces_proofTo_six, rfl⟩)).2⟩

/-- The quorum of epoch 5 announces epoch 3, and the client goes back to it. -/
theorem verifyAndRatchet_lowers_epoch :
    (clientAt 5).verifyAndRatchet .concrete (proofTo 3) none =
        .ok (.epoch (clientAt 3) (changeTo 3)) ∧
      ¬Ratcheted .concrete (clientAt 5) (clientAt 3) := by
  refine ⟨rfl, fun hsound => ?_⟩
  obtain ⟨_, hstate', hle⟩ := hsound.epoch_le _ rfl
  cases hstate'
  exact absurd hle (by decide)

end TrustedState

end Loki.Diem
