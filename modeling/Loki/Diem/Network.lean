import Loki.Diem.SafetyRules.EpochLog

/-!
# A network of validators in one epoch

The honest validators of an epoch run the safety rules; everything they hand out is sent to
everyone.  A step is a call to the rules of one honest validator, with arguments that anyone may
have chosen.  What limits the arguments is a parameter: which calls are made, and that they carry
no signature of an honest validator that it did not send before.

The other validators and the network have no state.  All they can do is choose the order of the
calls and their arguments.
-/

namespace Loki.Diem

open Loki.Foundation SafetyRules Function Option

/-- Proofs that are handed to `initialize` end in the validator set of the epoch. -/
def RulesOp.StartsOnly (state : EpochState) : RulesOp → Prop
  | .initializeRules proof => ∀ last ∈ proof.ledgerInfoWithSigs.getLast?,
      ∀ announced ∈ last.ledgerInfo.nextEpochState, announced = state
  | _ => True

/-- The rules have not gone beyond the epoch, and have entered it where they can vote. -/
structure SafetyRules.InEpoch (state : EpochState) (rules : SafetyRules) : Prop where
  memory : ∀ s, rules.epochState = some s → s = state
  entered : ∀ s d, rules.epochState = some s → rules.safetyData? = some d → d.epoch = state.epoch
  stored_le : ∀ d, rules.safetyData? = some d → d.epoch ≤ state.epoch

namespace SafetyRules.InEpoch

variable {C : Crypto} {rules t : SafetyRules} {state : EpochState}

theorem keepsEpoch (h : InEpoch state rules) (hkeeps : KeepsEpoch rules t) : InEpoch state t where
  memory := by
    intro s hs
    rcases hkeeps.epochState_eq with hsame | hnone
    · exact h.memory s (hsame ▸ hs)
    · rw [hnone] at hs
      cases hs
  entered := by
    intro s d hs hd
    obtain ⟨d', hd', hepoch⟩ := hkeeps.epoch_eq d hd
    rcases hkeeps.epochState_eq with hsame | hnone
    · exact hepoch ▸ h.entered s d' (hsame ▸ hs) hd'
    · rw [hnone] at hs
      cases hs
  stored_le := by
    intro d hd
    obtain ⟨d', hd', hepoch⟩ := hkeeps.epoch_eq d hd
    exact hepoch ▸ h.stored_le d' hd'

theorem announced_eq {proof last announced data}
    (hop : (RulesOp.initializeRules proof).StartsOnly state)
    (haccepted : ProofAccepted C rules proof last announced data) : announced = state := by
  obtain ⟨w, -, hverify⟩ := haccepted.verified
  exact hop last (EpochChangeProof.verify_sound hverify).1 announced haccepted.announced

theorem install {proof r}
    (h : InEpoch state rules) (hop : (RulesOp.initializeRules proof).StartsOnly state)
    (heffect : InstallEffect C proof rules r t) : InEpoch state t := by
  cases heffect with
  | refused quiet => exact h.keepsEpoch quiet.keepsEpoch
  | interrupted accepted _ entered _ hstate =>
    obtain rfl := announced_eq hop accepted
    -- the epoch is not entered yet, so there is no epoch state in memory
    have hnone : ∀ s, rules.epochState ≠ some s := by
      intro s hs
      have hentered := h.entered s _ hs accepted.stored
      omega
    refine ⟨fun s hs => absurd (hstate ▸ hs) (hnone s),
      fun s d hs => absurd (hstate ▸ hs) (hnone s), fun d hd => ?_⟩
    have hdata : t.safetyData? = t.persistentStorage.contents.safetyData := rfl
    rw [hdata] at hd
    rcases entered.safetyData_eq with hsame | ⟨-, hfresh⟩
    · rw [hsame] at hd
      exact h.stored_le d hd
    · rw [hfresh, some.injEq] at hd
      rw [← hd]
      exact le_rfl
  | @installed _ _ announced data accepted _ epoch _ hstate =>
    obtain rfl := announced_eq hop accepted
    obtain ⟨d, hdata, hepoch⟩ := epoch
    rw [max_eq_right (h.stored_le data accepted.stored)] at hepoch
    refine ⟨fun s hs => ?_, fun s d' _ hd => ?_, fun d' hd => ?_⟩
    · exact (some.inj (hstate.symm.trans hs)).symm
    · rw [← some.inj (hdata.symm.trans hd)]
      exact hepoch
    · rw [← some.inj (hdata.symm.trans hd)]
      exact hepoch.le

theorem perform (h : InEpoch state rules) (hc : rules.Coherent) (op)
    (hop : op.StartsOnly state) : InEpoch state (rules.perform C op).2 := by
  by_cases hinit : ∃ proof, op = .initializeRules proof
  · obtain ⟨proof, rfl⟩ := hinit
    obtain ⟨u, hinstall, hreconciled⟩ := @guardedInitialize_effect C rules hc proof
    exact (h.install hop hinstall).keepsEpoch hreconciled.keepsEpoch
  · exact h.keepsEpoch ((perform_effect hc op).2.2 fun proof heq => hinit ⟨proof, heq⟩)

end SafetyRules.InEpoch

/-! ## The network -/

abbrev Sent := List (Author × Output)

structure Network where
  nodes : Author → SafetyRules
  sent : Sent

def Network.call (C : Crypto) (net : Network) (author : Author) (op : RulesOp)
    (outcomes : List IoOutcome) : Network where
  nodes := update net.nodes author (event C (net.nodes author) (op, outcomes)).post
  sent := (author, (event C (net.nodes author) (op, outcomes)).output) :: net.sent

structure Conduct (state : EpochState) where
  Allows : Sent → RulesOp → Prop
  starts : ∀ sent op, Allows sent op → op.StartsOnly state
  mono : ∀ sent entry op, Allows sent op → Allows (entry :: sent) op

inductive Network.Step (C : Crypto) (honest : Finset Author) {state : EpochState}
    (conduct : Conduct state) : Network → Network → Prop
  | call {net : Network} {author : Author} (hauthor : author ∈ honest) (op : RulesOp)
      (outcomes : List IoOutcome) (allowed : conduct.Allows net.sent op) :
      Step C honest conduct net (net.call C author op outcomes)

structure Network.Start (honest : Finset Author) (state : EpochState) (net : Network) : Prop where
  coherent : ∀ author ∈ honest, (net.nodes author).Coherent
  inEpoch : ∀ author ∈ honest, (net.nodes author).InEpoch state
  stored : ∀ author ∈ honest, ∀ d, (net.nodes author).safetyData? = some d →
    d.epoch < state.epoch ∨ d = SafetyData.new state.epoch 0 0 0 none

structure NodeInvariant (state : EpochState) (log : List Entry) (rules : SafetyRules) : Prop where
  coherent : rules.Coherent
  inEpoch : rules.InEpoch state
  log : EpochLog state.epoch log rules.safetyData?

/-- What holds of the network: the logs contain all that was sent since `past`, and each entry was
signed by a call that the conduct allows. -/
structure NetworkInvariant (C : Crypto) (honest : Finset Author) {state : EpochState}
    (conduct : Conduct state) (past : Sent) (logs : Author → List Entry) (net : Network) :
    Prop where
  node : ∀ author ∈ honest, NodeInvariant state (logs author) (net.nodes author)
  signed : ∀ author ∈ honest, ∀ x ∈ logs author, ∃ rules op, conduct.Allows net.sent op ∧
    rules.InEpoch state ∧ rules.safetyData? = some x.data ∧ x.SignedBy C rules op
  votes : ∀ author ∈ honest, ∀ v, (author, .vote v) ∈ net.sent → (author, .vote v) ∈ past ∨
    ∃ d block, .vote d block v ∈ logs author
  timeouts : ∀ author ∈ honest, ∀ t, (author, .twoChainTimeout t) ∈ net.sent →
    t.epoch = state.epoch → (author, .twoChainTimeout t) ∈ past ∨ ∃ d, .timeout d t ∈ logs author

theorem NodeInvariant.step {C state log rules} (h : NodeInvariant state log rules) (op)
    (outcomes : List IoOutcome) (hop : op.StartsOnly state) :
    ∃ log', NodeInvariant state log' (event C rules (op, outcomes)).post ∧
      LogStep C (rules.withOutcomes outcomes) op state.epoch rules.safetyData?
        (event C rules (op, outcomes)).output log log' := by
  have hpre : (rules.withOutcomes outcomes).InEpoch state :=
    ⟨h.inEpoch.memory, h.inEpoch.entered, h.inEpoch.stored_le⟩
  obtain ⟨hdata, hcoherent⟩ := event_dataStep h.coherent (op, outcomes)
  have henters : ∀ d e, op.Enters C (rules.withOutcomes outcomes) d e → e = state.epoch := by
    intro d e henters
    cases op with
    | initializeRules =>
      obtain ⟨_, _, haccepted, rfl⟩ := henters
      rw [InEpoch.announced_eq hop haccepted]
    | _ => exact henters.elim
  obtain ⟨log', hlog, hstep⟩ := h.log.step hdata hpre.entered henters
  exact ⟨log', ⟨hcoherent, hpre.perform h.coherent op hop, hlog⟩, hstep⟩

namespace NetworkInvariant

variable {C : Crypto} {honest : Finset Author} {state : EpochState} {conduct : Conduct state}
  {past : Sent} {logs : Author → List Entry} {net net' : Network}

theorem start (h : net.Start honest state) :
    NetworkInvariant C honest conduct net.sent (fun _ => []) net where
  node := by
    intro author hauthor
    refine ⟨h.coherent author hauthor, h.inEpoch author hauthor,
      fun x hx => (nomatch hx), .nil, fun d hd _ v hv => ?_⟩
    rcases h.stored author hauthor d hd with _ | rfl
    · omega
    · cases hv
  signed := fun _ _ x hx => (nomatch hx)
  votes := fun _ _ _ hsent => .inl hsent
  timeouts := fun _ _ _ hsent _ => .inl hsent

theorem step (h : NetworkInvariant C honest conduct past logs net)
    (hstep : net.Step C honest conduct net') :
    ∃ logs', NetworkInvariant C honest conduct past logs' net' := by
  obtain ⟨hauthor, op, outcomes, allowed⟩ := hstep
  rename_i author
  have hnode := h.node author hauthor
  obtain ⟨log', hnode', hlog⟩ :=
    hnode.step op outcomes (conduct.starts _ _ allowed)
  have hpre : ((net.nodes author).withOutcomes outcomes).InEpoch state :=
    ⟨hnode.inEpoch.memory, hnode.inEpoch.entered, hnode.inEpoch.stored_le⟩
  have hgrows : ∀ a x, x ∈ logs a → x ∈ update logs author log' a := by
    intro a x hx
    by_cases ha : a = author
    · subst ha
      rw [update_self]
      exact hlog.grows x hx
    · rwa [update_of_ne ha]
  refine ⟨update logs author log', ?_, ?_, ?_, ?_⟩
  · intro a hhonest
    by_cases ha : a = author
    · subst ha
      simpa [Network.call] using hnode'
    · simpa [Network.call, update_of_ne ha] using h.node a hhonest
  · intro a hhonest x hx
    have hold : x ∈ logs a → ∃ rules op',
        conduct.Allows (net.call C author op outcomes).sent op' ∧ rules.InEpoch state ∧
          rules.safetyData? = some x.data ∧ x.SignedBy C rules op' := by
      intro hx
      obtain ⟨rules, op', hallows, hrest⟩ := h.signed a hhonest x hx
      exact ⟨rules, op', conduct.mono _ _ _ hallows, hrest⟩
    by_cases ha : a = author
    · subst ha
      rw [update_self] at hx
      rcases hlog.signed x hx with hmem | ⟨hsigned, hdata⟩
      · exact hold hmem
      · exact ⟨_, op, conduct.mono _ _ _ allowed, hpre, hdata, hsigned⟩
    · rw [update_of_ne ha] at hx
      exact hold hx
  · intro a hhonest v hv
    rcases List.mem_cons.mp hv with heq | hmem
    · obtain ⟨rfl, houtput⟩ := Prod.mk.inj heq
      obtain ⟨d, block, hx⟩ := hlog.votes v houtput.symm
      refine .inr ⟨d, block, ?_⟩
      rwa [update_self]
    · refine (h.votes a hhonest v hmem).imp id ?_
      rintro ⟨d, block, hx⟩
      exact ⟨d, block, hgrows a _ hx⟩
  · intro a hhonest t ht hepoch
    rcases List.mem_cons.mp ht with heq | hmem
    · obtain ⟨rfl, houtput⟩ := Prod.mk.inj heq
      obtain ⟨d, hx⟩ := hlog.timeouts t houtput.symm hepoch
      refine .inr ⟨d, ?_⟩
      rwa [update_self]
    · refine (h.timeouts a hhonest t hmem hepoch).imp id ?_
      rintro ⟨d, hx⟩
      exact ⟨d, hgrows a _ hx⟩

end NetworkInvariant

theorem Network.reachable_invariant {C honest state}
    {conduct : Conduct state} {net net'} (hstart : net.Start honest state)
    (hrun : Relation.ReflTransGen (Step C honest conduct) net net') :
    ∃ logs, NetworkInvariant C honest conduct net.sent logs net' := by
  induction hrun with
  | refl => exact ⟨_, .start hstart⟩
  | tail _ hstep ih =>
    obtain ⟨_, hinv⟩ := ih
    exact hinv.step hstep

end Loki.Diem
