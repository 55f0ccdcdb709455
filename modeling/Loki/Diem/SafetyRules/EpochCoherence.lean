import Loki.Diem.IdealCrypto
import Loki.Diem.SafetyRules.Runs

/-!
# Epoch coherence

The waypoint, the safety data and the epoch state are updated one after the other when an epoch
starts, and any of the writes may fail or be the last thing before a crash.  The invariant says
what survives: the stored waypoint belongs to a ledger info at the end of a chain of consecutive
epochs, the stored epoch is not beyond the one that it announces, and the epoch state in memory
is the end of such a chain too.

`EpochChangeProof::verify` does not compare the announced epochs.  A proof that announces an
epoch other than the next one can install a validator set below the stored epoch.
-/

namespace Loki.Diem

open Loki.Foundation Waypoint PersistentSafetyStorage List Option

def ConsecutiveEpochs (links : List LedgerInfoWithSignatures) : Prop :=
  ∀ li ∈ links, ∀ next ∈ li.ledgerInfo.nextEpochState, next.epoch = li.ledgerInfo.epoch + 1

theorem ConsecutiveEpochs.append {links links'}
    (h : ConsecutiveEpochs links) (h' : ConsecutiveEpochs links') :
    ConsecutiveEpochs (links ++ links') := by
  intro li hli
  rcases mem_append.mp hli with hmem | hmem
  · exact h li hmem
  · exact h' li hmem

namespace Chained

variable {C : Crypto} {links : List LedgerInfoWithSignatures}

theorem append {first mid last links'}
    (h : Chained C first links mid) (h' : Chained C mid links' last) :
    Chained C first (links ++ links') last := by
  induction h with
  | nil => exact h'
  | cons haccepts hnext _ ih => exact .cons haccepts hnext (ih h')

theorem epoch_le {verifier target} (h : Chained C verifier links target)
    (hlinks : ConsecutiveEpochs links) :
    ∀ first last, verifier = .epochState first → target = .epochState last →
      first.epoch ≤ last.epoch := by
  induction h with
  | nil =>
    rintro first last rfl hlast
    cases hlast
    exact le_rfl
  | @cons _ _ li next _ haccepts hnext _ ih =>
    rintro first last rfl rfl
    have hrest := ih (fun li hli => hlinks li (mem_cons_of_mem _ hli)) next last rfl rfl
    have hconsecutive := hlinks li mem_cons_self next hnext
    have hepoch : first.epoch = li.ledgerInfo.epoch := haccepts.1
    omega

end Chained

theorem Waypoint.newAny_announces {C} (hC : C.CollisionFree) {li li'}
    (h : newAny C li = newAny C li') : li.nextEpochState = li'.nextEpochState := by
  have hvalue := hC (congrArg value h)
  injection hvalue with hconverter
  exact congrArg Ledger2WaypointConverter.nextEpochState hconverter

/-- The fresh ledger infos of a proof that is handed to `initialize` announce the epoch after
their own. -/
def RulesOp.AnnouncesNext (rules : SafetyRules) : RulesOp → Prop
  | .initializeRules proof => ∀ waypoint, rules.waypoint? = some waypoint →
      ConsecutiveEpochs (proof.freshLedgerInfos (.waypoint waypoint))
  | _ => True

namespace SafetyRules

def Linked (C : Crypto) (root state : EpochState) : Prop :=
  ∃ links, Chained C (.epochState root) links (.epochState state) ∧ ConsecutiveEpochs links

structure EpochInvariant (C : Crypto) (root : EpochState) (rules : SafetyRules) : Prop where
  stored : ∃ li state, rules.waypoint? = some (newAny C li) ∧
    li.nextEpochState = some state ∧ Linked C root state ∧
    ∀ data, rules.safetyData? = some data → data.epoch ≤ state.epoch
  memory : ∀ state, rules.epochState = some state → Linked C root state

variable {C : Crypto} {rules t : SafetyRules} {root : EpochState} {proof : EpochChangeProof}
  {last : LedgerInfoWithSignatures} {state : EpochState}

theorem ProofAccepted.linked {data} (hC : C.CollisionFree) (hinv : EpochInvariant C root rules)
    (hproof : RulesOp.AnnouncesNext rules (.initializeRules proof))
    (h : ProofAccepted C rules proof last state data) :
    Linked C root state ∧ data.epoch ≤ state.epoch := by
  obtain ⟨li, current, hwaypoint, hannounced, ⟨links, hlinks, hconsecutive⟩, hstored⟩ := hinv.stored
  obtain ⟨w, hw, hverify⟩ := h.verified
  have hsame : w = newAny C li := some.inj (hw.symm.trans hwaypoint)
  subst hsame
  obtain ⟨-, -, -, next, hnext, hchain⟩ := EpochChangeProof.verify_sound hverify
  have hstate : next = state := some.inj (hnext.symm.trans h.announced)
  subst hstate
  have hfresh := hproof _ hwaypoint
  generalize proof.freshLedgerInfos (.waypoint (newAny C li)) = fresh at hchain hfresh
  cases hchain with
  | @cons _ _ first next' rest haccepts hfirst hrest =>
    -- the first fresh ledger info is the one of the waypoint
    have hcurrent : next' = current := by
      have hmatch := newAny_announces hC haccepts
      rw [hfirst, hannounced] at hmatch
      exact some.inj hmatch
    subst hcurrent
    have htail : ConsecutiveEpochs rest := fun li hli => hfresh li (mem_cons_of_mem _ hli)
    refine ⟨⟨links ++ rest, hlinks.append hrest, hconsecutive.append htail⟩, ?_⟩
    exact (hstored data h.stored).trans (hrest.epoch_le htail _ _ rfl rfl)

theorem KeepsEpoch.invariant (h : KeepsEpoch rules t) (hinv : EpochInvariant C root rules) :
    EpochInvariant C root t := by
  obtain ⟨li, state, hwaypoint, hannounced, hlinked, hle⟩ := hinv.stored
  refine ⟨⟨li, state, h.waypoint_eq.trans hwaypoint, hannounced, hlinked, fun data hdata => ?_⟩,
    fun state hstate => ?_⟩
  · obtain ⟨data', hdata', hepoch⟩ := h.epoch_eq data hdata
    exact hepoch ▸ hle data' hdata'
  · rcases h.epochState_eq with hsame | hnone
    · exact hinv.memory state (hsame ▸ hstate)
    · rw [hnone] at hstate
      cases hstate

def SameEpoch (state : EpochState) (rules : SafetyRules) : Prop :=
  rules.epochState = some state ∧ ∃ data, rules.safetyData? = some data ∧ data.epoch = state.epoch

section

variable (hC : C.CollisionFree) (hinv : EpochInvariant C root rules)
  (hproof : RulesOp.AnnouncesNext rules (.initializeRules proof))

include hC hinv hproof

theorem Entered.stored {data} (haccepted : ProofAccepted C rules proof last state data)
    {newer} (h : Entered C last.ledgerInfo state newer rules.persistentStorage.contents
      t.persistentStorage.contents) :
    ∃ li state, t.waypoint? = some (newAny C li) ∧
      li.nextEpochState = some state ∧ Linked C root state ∧
      ∀ data, t.safetyData? = some data → data.epoch ≤ state.epoch := by
  obtain ⟨hlinked, hle⟩ := haccepted.linked hC hinv hproof
  have hold : rules.safetyData? = some data := haccepted.stored
  have hwaypoint : t.waypoint? = t.persistentStorage.contents.waypoint := rfl
  have hdata : t.safetyData? = t.persistentStorage.contents.safetyData := rfl
  rw [hwaypoint, hdata]
  generalize t.persistentStorage.contents = after at h
  cases h with
  | nothing => exact hinv.stored
  | waypoint =>
    refine ⟨last.ledgerInfo, state, rfl, haccepted.announced, hlinked, fun d hd => ?_⟩
    have hsame : d = data := some.inj (hd.symm.trans hold)
    rw [hsame]
    exact hle
  | both =>
    refine ⟨last.ledgerInfo, state, rfl, haccepted.announced, hlinked, fun d hd => ?_⟩
    cases hd
    exact le_rfl

theorem InstallEffect.invariant {r} (h : InstallEffect C proof rules r t) :
    EpochInvariant C root t ∧ ∀ state, r = .ok state → SameEpoch state t := by
  cases h with
  | refused quiet => exact ⟨quiet.keepsEpoch.invariant hinv, nofun⟩
  | interrupted accepted _ entered _ epochState =>
    exact ⟨⟨entered.stored hC hinv hproof accepted, epochState ▸ hinv.memory⟩, nofun⟩
  | @installed _ last state data accepted entered epoch _ epochState =>
    obtain ⟨hlinked, hle⟩ := accepted.linked hC hinv hproof
    refine ⟨⟨entered.stored hC hinv hproof accepted, fun state' hstate' => ?_⟩, ?_⟩
    · rw [epochState, some.injEq] at hstate'
      exact hstate' ▸ hlinked
    · -- the proof cannot lead below the stored epoch
      rintro _ hr
      cases hr
      obtain ⟨d, hd, hepoch⟩ := epoch
      exact ⟨epochState, d, hd, hepoch.trans (max_eq_right hle)⟩

end

theorem SameEpoch.reconciled (h : SameEpoch state rules) (hreconciled : Reconciled rules t) :
    SameEpoch state t := by
  obtain ⟨hstate, data, hdata, hepoch⟩ := h
  refine ⟨?_, data, ?_, hepoch⟩
  · rw [hreconciled.rest]
    exact hstate
  · exact (safetyData_of_contents hreconciled.storage.contents_eq).trans hdata

/-- One call keeps the invariant, and an `initialize` that passes puts memory and store in the
same epoch. -/
theorem perform_epochInvariant (hC : C.CollisionFree) (hc : rules.Coherent)
    (hinv : EpochInvariant C root rules) (op) (hop : op.AnnouncesNext rules) :
    EpochInvariant C root (rules.perform C op).2 ∧
      ∀ proof state, op = .initializeRules proof →
        ((installEpochState C proof).exec rules).1 = .ok state →
          SameEpoch state (rules.perform C op).2 := by
  by_cases hinit : ∃ proof, op = .initializeRules proof
  · obtain ⟨proof, rfl⟩ := hinit
    obtain ⟨u, hinstall, hreconciled⟩ := @guardedInitialize_effect C rules hc proof
    obtain ⟨hnext, hsame⟩ := hinstall.invariant hC hinv hop
    refine ⟨hreconciled.keepsEpoch.invariant hnext, ?_⟩
    rintro _ state ⟨rfl⟩ hpassed
    exact (hsame state hpassed).reconciled hreconciled
  · have hne : ∀ proof, op ≠ .initializeRules proof := fun proof h => hinit ⟨proof, h⟩
    exact ⟨((perform_effect hc op).2.2 hne).invariant hinv, fun proof _ h => absurd h (hne proof)⟩

structure Event.EpochCoherent (C : Crypto) (root : EpochState) (event : Event) : Prop where
  passed : ∀ proof state, event.op = .initializeRules proof →
    ((installEpochState C proof).exec event.pre).1 = .ok state → SameEpoch state event.post
  linked : ∀ state, event.post.epochState = some state → Linked C root state

theorem trace_epochCoherent_of_invariant (hC : C.CollisionFree)
    (calls : List (RulesOp × List IoOutcome)) :
    ∀ rules, rules.Coherent → EpochInvariant C root rules →
      (∀ event ∈ trace C rules calls, event.op.AnnouncesNext event.pre) →
      ∀ event ∈ trace C rules calls, event.EpochCoherent C root := by
  induction calls with
  | nil =>
    intro rules hc hinv hops event hevent
    cases hevent
  | cons call _ ih =>
    intro rules hc hinv hops e he
    have hfirst := hops (event C rules call) mem_cons_self
    have hpre : EpochInvariant C root (rules.withOutcomes call.2) := ⟨hinv.stored, hinv.memory⟩
    obtain ⟨hnext, hpassed⟩ :=
      @perform_epochInvariant C (rules.withOutcomes call.2) root hC hc hpre call.1 hfirst
    rcases mem_cons.mp he with rfl | hmem
    · exact ⟨hpassed, hnext.memory⟩
    · exact ih _ (event_dataStep hc call).2 hnext
        (fun event hevent => hops event (mem_cons_of_mem _ hevent)) e hmem

variable (C : Crypto)

/-- In every run whose proofs announce consecutive epochs, memory and store agree on the epoch
after each `initialize`, and every installed validator set is linked to the waypoint. -/
theorem trace_epochCoherent (hC : C.CollisionFree) (rules : SafetyRules)
    (hc : rules.Coherent) (hstart : rules.epochState = none) (li : LedgerInfo) (root : EpochState)
    (hwaypoint : rules.waypoint? = some (newAny C li)) (hroot : li.nextEpochState = some root)
    (hepoch : ∀ data, rules.safetyData? = some data → data.epoch ≤ root.epoch)
    (calls : List (RulesOp × List IoOutcome))
    (hops : ∀ event ∈ trace C rules calls, event.op.AnnouncesNext event.pre) :
    ∀ event ∈ trace C rules calls, event.EpochCoherent C root := by
  refine trace_epochCoherent_of_invariant hC calls rules hc ⟨?_, fun _ hstate => ?_⟩ hops
  · exact ⟨li, root, hwaypoint, hroot, ⟨[], .nil _, nofun⟩, hepoch⟩
  · rw [hstart] at hstate
    cases hstate

def boundaryLi (epoch announced : Nat) : LedgerInfoWithSignatures :=
  let li : LedgerInfo := {
    commitInfo := {
      BlockInfo.empty with
      epoch := epoch
      version := epoch
      nextEpochState := some { epoch := announced, verifier := .sole } }
    consensusDataHash := 0 }
  { ledgerInfo := li
    signatures := (∅ : BTreeMap AccountAddress Signature).insert 1 (C.sign 7 (.ledgerInfo li)) }

/-- Rules that have just come up, with a waypoint at the end of epoch 1 and data of epoch 2. -/
def secondEpochRules : SafetyRules where
  persistentStorage := .new {
    refusesImport := true
    consensusKeys := [7]
    executionKey := some 8
    safetyData := some (SafetyData.new 2 0 0 0 none)
    ownerAccount := some 1
    waypoint := some (newAny C (boundaryLi C 1 2).ledgerInfo)
    outcomes := [] } true
  executionPublicKey := none
  exportConsensusKey := true
  validatorSigner := none
  epochState := none
  decoupledExecution := true

def secondEpochProof (announced : Nat) : EpochChangeProof where
  ledgerInfoWithSigs := [boundaryLi C 1 2, boundaryLi C 2 announced]
  more := false

theorem trace_epochCoherent_secondEpoch :
    (event .ideal (secondEpochRules .ideal)
      (.initializeRules (secondEpochProof .ideal 3), [])).EpochCoherent .ideal
        { epoch := 2, verifier := .sole } := by
  refine trace_epochCoherent .ideal Crypto.ideal_collisionFree (secondEpochRules .ideal)
    (new_coherent _ _) rfl (boundaryLi .ideal 1 2).ledgerInfo _ rfl rfl
    ?_ [(.initializeRules (secondEpochProof .ideal 3), [])] ?_ _ mem_cons_self
  · rintro _ hdata
    cases hdata
    exact le_rfl
  · intro _ hevent
    obtain rfl := mem_singleton.mp hevent
    rintro w _ li hli _ hnext
    have hmem : li = boundaryLi .ideal 1 2 ∨ li = boundaryLi .ideal 2 3 := by
      have hsub := (dropWhile_sublist _).subset hli
      simpa [secondEpochProof] using hsub
    rcases hmem with rfl | rfl
    · cases hnext
      rfl
    · cases hnext
      rfl

/-- The quorum of epoch 2 announces epoch 1, and its set is installed over data of epoch 2. -/
theorem perform_installs_lower_epoch :
    (secondEpochRules .concrete).waypoint? =
        some (newAny .concrete (boundaryLi .concrete 1 2).ledgerInfo) ∧
      (boundaryLi .concrete 1 2).ledgerInfo.nextEpochState =
        some { epoch := 2, verifier := .sole } ∧
      (secondEpochRules .concrete).safetyData? = some (SafetyData.new 2 0 0 0 none) ∧
      ((installEpochState .concrete (secondEpochProof .concrete 1)).exec
        (secondEpochRules .concrete)).1 = .ok { epoch := 1, verifier := .sole } ∧
      ¬SameEpoch { epoch := 1, verifier := .sole } ((secondEpochRules .concrete).perform .concrete
        (.initializeRules (secondEpochProof .concrete 1))).2 := by
  refine ⟨rfl, rfl, rfl, rfl, ?_⟩
  rintro ⟨-, _, hdata, hepoch⟩
  cases hdata
  cases hepoch

end SafetyRules

end Loki.Diem
