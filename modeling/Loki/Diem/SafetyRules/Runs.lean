import Loki.Diem.SafetyRules.Effects

/-!
# Runs of the safety rules

A run is a sequence of calls to one instance of the safety rules, each with the storage faults
that it meets, and of restarts that rebuild the rules from the internal store.  `DataStep` says
what one step can do to the stored safety data and what it hands out, for all methods at once.
-/

namespace Loki.Diem

open Loki.Foundation PersistentSafetyStorage

/-- The calls of `TSafetyRules`, and a restart of the process. -/
inductive RulesOp where
  | initializeRules (proof : EpochChangeProof)
  | constructAndSignVote (now : Nat) (proposal : MaybeSignedVoteProposal)
  | constructAndSignVoteTwoChain (now : Nat) (proposal : MaybeSignedVoteProposal)
      (tc : Option TwoChainTimeoutCertificate)
  | signTimeout (timeout : Timeout)
  | signTimeoutWithQc (timeout : TwoChainTimeout) (tc : Option TwoChainTimeoutCertificate)
  | signProposal (data : BlockData)
  | signCommitVote (li : LedgerInfoWithSignatures) (newLi : LedgerInfo)
  | restart (enableCache verifySignature exportKey decoupled : Bool)

inductive Output where
  | silent
  | vote (vote : Vote)
  | timeout (timeout : Timeout)
  | twoChainTimeout (repr : TimeoutSigningRepr)

def Output.position : Output → Option (Nat × Nat)
  | .silent => none
  | .vote v => some (v.epoch, v.round)
  | .timeout t => some (t.epoch, t.round)
  | .twoChainTimeout t => some (t.epoch, t.round)

namespace SafetyRules

variable (C : Crypto)

def voteOutput : Except (Fault Error) Vote → Output
  | .ok vote => .vote vote
  | .error _ => .silent

def timeoutOutput (output : Output) : Except (Fault Error) Signature → Output
  | .ok _ => output
  | .error _ => .silent

variable (rules : SafetyRules)

/-- The rules over the same store in a new process.  A process that cannot read its execution
key does not come up. -/
def restart (enableCache verifySignature exportKey decoupled : Bool) : SafetyRules :=
  (new C (PersistentSafetyStorage.new rules.persistentStorage.internalStore enableCache)
    verifySignature exportKey decoupled).getD rules

def perform : RulesOp → Output × SafetyRules
  | .initializeRules proof => (.silent, ((guardedInitialize C proof).exec rules).2)
  | .constructAndSignVote now proposal =>
    let (r, t) := (constructAndSignVote C now proposal).exec rules
    (voteOutput r, t)
  | .constructAndSignVoteTwoChain now proposal tc =>
    let (r, t) := (constructAndSignVoteTwoChain C now proposal tc).exec rules
    (voteOutput r, t)
  | .signTimeout timeout =>
    let (r, t) := (signTimeout C timeout).exec rules
    (timeoutOutput (.timeout timeout) r, t)
  | .signTimeoutWithQc timeout tc =>
    let (r, t) := (signTimeoutWithQc C timeout tc).exec rules
    (timeoutOutput (.twoChainTimeout timeout.signingFormat) r, t)
  | .signProposal data => (.silent, ((signProposal C data).exec rules).2)
  | .signCommitVote li newLi => (.silent, ((signCommitVote C li newLi).exec rules).2)
  | .restart enableCache verifySignature exportKey decoupled =>
    (.silent, rules.restart C enableCache verifySignature exportKey decoupled)

def withOutcomes (outcomes : List IoOutcome) : SafetyRules :=
  { rules with persistentStorage := {
      rules.persistentStorage with internalStore := {
        rules.persistentStorage.internalStore with outcomes := outcomes } } }

structure Event where
  pre : SafetyRules
  op : RulesOp
  output : Output
  post : SafetyRules

def event (rules : SafetyRules) (call : RulesOp × List IoOutcome) : Event where
  pre := rules.withOutcomes call.2
  op := call.1
  output := (perform C (rules.withOutcomes call.2) call.1).1
  post := (perform C (rules.withOutcomes call.2) call.1).2

def trace (rules : SafetyRules) : List (RulesOp × List IoOutcome) → List Event
  | [] => []
  | call :: calls => event C rules call :: trace (event C rules call).post calls

end SafetyRules

open SafetyRules

namespace RulesOp

variable (C : Crypto) (rules : SafetyRules)

def Votes : RulesOp → SafetyData → Block → Vote → Prop
  | .constructAndSignVote _ proposal, data, block, vote =>
    block = proposal.voteProposal.block ∧ NewVote3 C rules data block vote
  | .constructAndSignVoteTwoChain _ proposal tc, data, block, vote =>
    block = proposal.voteProposal.block ∧ NewVote2 C tc rules data block vote
  | _, _, _, _ => False

def TimesOut : RulesOp → SafetyData → Output → Prop
  | .signTimeout timeout, data, output =>
    output = .timeout timeout ∧ timeout.epoch = data.epoch ∧ data.preferredRound < timeout.round
  | .signTimeoutWithQc timeout tc, data, output =>
    output = .twoChainTimeout timeout.signingFormat ∧ TimeoutAllowed timeout tc data
  | _, _, _ => False

def Enters : RulesOp → SafetyData → Nat → Prop
  | .initializeRules proof, data, epoch =>
    ∃ last state, ProofAccepted C rules proof last state data ∧ epoch = state.epoch
  | _, _, _ => False

end RulesOp

/-- Every way in which a call can change the stored safety data and hand out a vote or a
timeout. -/
inductive DataStep (C : Crypto) (rules : SafetyRules) (op : RulesOp) :
    Option SafetyData → Output → Option SafetyData → Prop
  | silent (data : Option SafetyData) : DataStep C rules op data .silent data
  | sendBack {data : SafetyData} {vote : Vote} {state : EpochState}
      (active : rules.epochState = some state) (stored : data.lastVote = some vote) :
      DataStep C rules op (some data) (.vote vote) (some data)
  | newVote {data : SafetyData} {block : Block} {vote : Vote} {output : Output}
      (signs : op.Votes C rules data block vote)
      (output_eq : output = .vote vote ∨ output = .silent) :
      DataStep C rules op (some data) output (some (afterVote data block vote))
  | repeatTimeout {data : SafetyData} {output : Output} (signs : op.TimesOut data output)
      (position : output.position = some (data.epoch, data.lastVotedRound)) :
      DataStep C rules op (some data) output (some data)
  | raise {data : SafetyData} {round : Nat} {signed output : Output}
      (signs : op.TimesOut data signed) (position : signed.position = some (data.epoch, round))
      (round_gt : data.lastVotedRound < round) (output_eq : output = signed ∨ output = .silent) :
      DataStep C rules op (some data) output (some { data with lastVotedRound := round })
  | newEpoch {data : SafetyData} {epoch : Nat} (enters : op.Enters C rules data epoch)
      (newer : data.epoch < epoch) :
      DataStep C rules op (some data) .silent (some (SafetyData.new epoch 0 0 0 none))

variable {op : RulesOp} {data : SafetyData} {C : Crypto} {rules : SafetyRules} {block : Block}
  {vote : Vote}

theorem RulesOp.TimesOut.ne_vote {output} (h : op.TimesOut data output) (vote) :
    output ≠ .vote vote := by
  cases op with
  | signTimeout | signTimeoutWithQc => exact h.1 ▸ fun heq => nomatch heq
  | _ => exact h.elim

theorem SafetyRules.NewVote.facts {ledgerInfo} (h : NewVote C rules data block ledgerInfo vote) :
    data.lastVotedRound < block.round ∧ vote.epoch = data.epoch ∧ vote.round = block.round := by
  obtain ⟨_, -, hverified⟩ := h.verified
  exact ⟨h.round_gt, hverified.proposed_epoch.trans hverified.epoch_eq, hverified.proposed_round⟩

theorem RulesOp.Votes.facts (h : op.Votes C rules data block vote) :
    data.lastVotedRound < block.round ∧ vote.epoch = data.epoch ∧ vote.round = block.round := by
  cases op with
  | constructAndSignVote | constructAndSignVoteTwoChain => exact h.2.facts
  | _ => exact h.elim

theorem RulesOp.Votes.active (h : op.Votes C rules data block vote) :
    ∃ state, rules.epochState = some state := by
  cases op with
  | constructAndSignVote | constructAndSignVoteTwoChain =>
    obtain ⟨state, hstate, -⟩ := h.2.verified
    exact ⟨state, hstate⟩
  | _ => exact h.elim

/-- A vote that is handed out or stored was stored before, or is signed by the call. -/
theorem DataStep.vote_cases {data data' output} (hstep : DataStep C rules op data output data')
    (h : output = .vote vote ∨ ∃ d, data' = some d ∧ d.lastVote = some vote) :
    (∃ d, data = some d ∧ d.lastVote = some vote) ∨
      ∃ d block, data = some d ∧ op.Votes C rules d block vote := by
  cases hstep with
  | silent =>
    rcases h with houtput | hstored
    · cases houtput
    · exact .inl hstored
  | sendBack _ stored =>
    rcases h with houtput | hstored
    · cases houtput
      exact .inl ⟨_, rfl, stored⟩
    · exact .inl hstored
  | newVote signs output_eq =>
    rcases h with houtput | ⟨d, hd, hlast⟩
    · subst houtput
      rcases output_eq with heq | heq
      · cases heq
        exact .inr ⟨_, _, rfl, signs⟩
      · cases heq
    · cases hd
      cases hlast
      exact .inr ⟨_, _, rfl, signs⟩
  | repeatTimeout signs =>
    rcases h with houtput | hstored
    · exact absurd houtput (signs.ne_vote vote)
    · exact .inl hstored
  | raise signs _ _ output_eq =>
    rcases h with houtput | ⟨d, hd, hlast⟩
    · subst houtput
      rcases output_eq with heq | heq
      · exact absurd heq.symm (signs.ne_vote vote)
      · cases heq
    · cases hd
      exact .inl ⟨_, rfl, hlast⟩
  | newEpoch =>
    rcases h with houtput | ⟨d, hd, hlast⟩
    · cases houtput
    · cases hd
      cases hlast

namespace SafetyRules

variable {t : SafetyRules} {New : SafetyData → Vote → Prop} {r : Except (Fault Error) Signature}
  {Allowed : SafetyData → Prop} {round : Nat} {proof : EpochChangeProof}

theorem Quiet.dataStep (h : Quiet rules t) :
    DataStep C rules op rules.safetyData? .silent t.safetyData? :=
  h.safetyData?_eq ▸ .silent _

theorem VoteEffect.dataStep {r}
    (hnew : ∀ data vote, New data vote → op.Votes C rules data block vote)
    (h : VoteEffect New rules block r t) :
    DataStep C rules op rules.safetyData? (voteOutput r) t.safetyData? := by
  rcases h with ⟨hquiet, hsent⟩ | ⟨data, vote, hdata, hvote, hwrote, hr⟩
  · cases r with
    | error => exact hquiet.dataStep
    | ok vote =>
      obtain ⟨⟨data, hdata, hvoted, -⟩, _, hstate⟩ := hsent vote rfl
      rw [hquiet.safetyData?_eq, hdata]
      exact .sendBack hstate (Option.filter_eq_some_iff.mp hvoted).1
  · rw [hdata, hwrote.safetyData?_eq]
    refine .newVote (hnew data vote hvote) ?_
    cases r with
    | error => exact .inr rfl
    | ok vote' => exact .inl (congrArg Output.vote (hr vote' rfl))

theorem TimeoutEffect.dataStep {output} (hallowed : ∀ data, Allowed data → op.TimesOut data output ∧
      output.position = some (data.epoch, round)) (h : TimeoutEffect Allowed rules round r t) :
    DataStep C rules op rules.safetyData? (timeoutOutput output r) t.safetyData? := by
  rcases h with ⟨hquiet, hsigned⟩ | ⟨data, hdata, hallow, hround, hwrote⟩
  · cases r with
    | error => exact hquiet.dataStep
    | ok signature =>
      obtain ⟨data, hdata, hallow, rfl⟩ := hsigned signature rfl
      obtain ⟨hsigns, hposition⟩ := hallowed data hallow
      rw [hquiet.safetyData?_eq, hdata]
      exact .repeatTimeout hsigns hposition
  · obtain ⟨hsigns, hposition⟩ := hallowed data hallow
    rw [hdata, hwrote.safetyData?_eq]
    refine .raise hsigns hposition hround ?_
    cases r with
    | error => exact .inr rfl
    | ok => exact .inl rfl

theorem Entered.dataStep {last state data}
    (accepted : ProofAccepted C rules proof last state data)
    (h : Entered C last.ledgerInfo state (data.epoch < state.epoch)
      rules.persistentStorage.contents t.persistentStorage.contents) :
    DataStep C rules (.initializeRules proof) rules.safetyData? .silent t.safetyData? := by
  rcases h.safetyData_eq with hsame | ⟨newer, hfresh⟩
  · have hdata : t.safetyData? = rules.safetyData? := hsame
    rw [hdata]
    exact .silent _
  · have hdata : t.safetyData? = some _ := hfresh
    rw [hdata, accepted.stored]
    exact .newEpoch ⟨_, _, accepted, rfl⟩ newer

theorem InstallEffect.dataStep {r} (h : InstallEffect C proof rules r t) :
    DataStep C rules (.initializeRules proof) rules.safetyData? .silent t.safetyData? := by
  cases h with
  | refused quiet => exact quiet.dataStep
  | interrupted accepted _ entered | installed accepted entered => exact entered.dataStep accepted

theorem InitializeEffect.dataStep (h : InitializeEffect C proof rules t) :
    DataStep C rules (.initializeRules proof) rules.safetyData? .silent t.safetyData? := by
  obtain ⟨u, hinstall, hreconciled⟩ := h
  have hdata : t.safetyData? = u.safetyData? :=
    safetyData_of_contents hreconciled.storage.contents_eq
  rw [hdata]
  exact hinstall.dataStep

theorem InstallEffect.coherent {r} (hc : rules.Coherent)
    (h : InstallEffect C proof rules r t) : t.Coherent := by
  cases h with
  | refused quiet => exact quiet.coherent hc
  | interrupted _ _ _ coherent | installed _ _ _ coherent => exact coherent

theorem InitializeEffect.coherent (hc : rules.Coherent) (h : InitializeEffect C proof rules t) :
    t.Coherent := by
  obtain ⟨u, hinstall, hreconciled⟩ := h
  exact hreconciled.storage.coherent (hinstall.coherent hc)

theorem new_spec {storage verifySignature exportKey decoupled} (hopen : storage.Coherent)
    (h : new C storage verifySignature exportKey decoupled = some t) :
    t.Coherent ∧ t.persistentStorage.contents = storage.contents ∧ t.epochState = none ∧
      t.validatorSigner = none := by
  have hread := @executionPublicKey_ensures C storage
  unfold Call.Ensures at hread
  unfold new at h
  split at h
  · split at h
    · next key storage hexec =>
        cases h
        rw [hexec] at hread
        exact ⟨hread.coherent hopen, hread.contents_eq, rfl, rfl⟩
    · cases h
  · cases h
    exact ⟨hopen, rfl, rfl, rfl⟩

theorem restart_cases (enableCache verifySignature exportKey decoupled : Bool) :
    rules.restart C enableCache verifySignature exportKey decoupled = rules ∨
      ∃ u, rules.restart C enableCache verifySignature exportKey decoupled = u ∧ u.Coherent ∧
        u.persistentStorage.contents = rules.persistentStorage.contents ∧
        u.epochState = none ∧ u.validatorSigner = none := by
  unfold restart
  cases hnew : new C (PersistentSafetyStorage.new rules.persistentStorage.internalStore
    enableCache) verifySignature exportKey decoupled with
  | none => exact .inl rfl
  | some u =>
    have hspec := new_spec (new_coherent _ _) hnew
    exact .inr ⟨u, rfl, hspec⟩

def waypoint? (rules : SafetyRules) : Option Waypoint :=
  rules.persistentStorage.internalStore.waypoint

/-- What the rest of `initialize` and the other calls keep. -/
structure KeepsEpoch (rules t : SafetyRules) : Prop where
  coherent : rules.Coherent → t.Coherent
  waypoint_eq : t.waypoint? = rules.waypoint?
  epochState_eq : t.epochState = rules.epochState ∨ t.epochState = none
  epoch_eq : ∀ data, t.safetyData? = some data →
    ∃ data', rules.safetyData? = some data' ∧ data'.epoch = data.epoch

theorem keepsEpoch_of_contents (hc : rules.Coherent → t.Coherent)
    (h : t.persistentStorage.contents = rules.persistentStorage.contents)
    (hstate : t.epochState = rules.epochState ∨ t.epochState = none) : KeepsEpoch rules t := by
  have hwaypoint := congrArg SecureStorage.waypoint h
  have hdata : t.safetyData? = rules.safetyData? := safetyData_of_contents h
  exact ⟨hc, hwaypoint, hstate, fun data hd => ⟨data, hdata ▸ hd, rfl⟩⟩

theorem Quiet.keepsEpoch (h : Quiet rules t) : KeepsEpoch rules t :=
  keepsEpoch_of_contents h.coherent h.storage.contents_eq (.inl h.epochState_eq)

theorem Wrote.keepsEpoch {data data'} (h : Wrote rules t data')
    (hdata : rules.safetyData? = some data) (hepoch : data'.epoch = data.epoch) :
    KeepsEpoch rules t := by
  have hwaypoint : t.waypoint? = rules.waypoint? := by
    have hcontents := congrArg SecureStorage.waypoint h.contents_eq
    exact hcontents
  refine ⟨fun _ => h.coherent, hwaypoint, .inl h.epochState_eq, fun d hd => ⟨data, hdata, ?_⟩⟩
  rw [h.safetyData?_eq, Option.some.injEq] at hd
  rw [← hd, hepoch]

theorem VoteEffect.keepsEpoch {r} (h : VoteEffect New rules block r t) : KeepsEpoch rules t := by
  rcases h with ⟨hquiet, -⟩ | ⟨_, _, hdata, -, hwrote, -⟩
  · exact hquiet.keepsEpoch
  · exact hwrote.keepsEpoch hdata rfl

theorem TimeoutEffect.keepsEpoch (h : TimeoutEffect Allowed rules round r t) :
    KeepsEpoch rules t := by
  rcases h with ⟨hquiet, -⟩ | ⟨_, hdata, -, -, hwrote⟩
  · exact hquiet.keepsEpoch
  · exact hwrote.keepsEpoch hdata rfl

theorem Reconciled.keepsEpoch (h : Reconciled rules t) : KeepsEpoch rules t := by
  refine keepsEpoch_of_contents h.storage.coherent h.storage.contents_eq (.inl ?_)
  rw [h.rest]

theorem perform_effect (hc : rules.Coherent) (op) :
    DataStep C rules op rules.safetyData? (rules.perform C op).1
        (rules.perform C op).2.safetyData? ∧
      (rules.perform C op).2.Coherent ∧
      ((∀ proof, op ≠ .initializeRules proof) → KeepsEpoch rules (rules.perform C op).2) := by
  cases op with
  | initializeRules proof =>
    have h := @guardedInitialize_effect C rules hc proof
    exact ⟨h.dataStep, h.coherent hc, fun hop => absurd rfl (hop proof)⟩
  | constructAndSignVote now proposal =>
    have h := @constructAndSignVote_effect C rules hc now proposal
    exact ⟨h.dataStep fun _ _ hnew => ⟨rfl, hnew⟩, h.keepsEpoch.coherent hc, fun _ => h.keepsEpoch⟩
  | constructAndSignVoteTwoChain now proposal tc =>
    have h := @constructAndSignVoteTwoChain_effect C rules hc now proposal tc
    exact ⟨h.dataStep fun _ _ hnew => ⟨rfl, hnew⟩, h.keepsEpoch.coherent hc, fun _ => h.keepsEpoch⟩
  | signTimeout timeout =>
    have h := @signTimeout_effect C rules hc timeout
    exact ⟨h.dataStep fun _ hallowed => ⟨⟨rfl, hallowed⟩, by simp [Output.position, hallowed.1]⟩,
      h.keepsEpoch.coherent hc, fun _ => h.keepsEpoch⟩
  | signTimeoutWithQc timeout tc =>
    have h := @signTimeoutWithQc_effect C rules hc timeout tc
    refine ⟨h.dataStep fun _ hallowed => ⟨⟨rfl, hallowed⟩, ?_⟩, h.keepsEpoch.coherent hc,
      fun _ => h.keepsEpoch⟩
    simp [Output.position, TwoChainTimeout.signingFormat, hallowed.epoch_eq]
  | signProposal data =>
    have h := @signProposal_effect C rules hc data
    exact ⟨h.dataStep, h.coherent hc, fun _ => h.keepsEpoch⟩
  | signCommitVote li newLi =>
    have h := @signCommitVote_effect C rules li newLi
    exact ⟨h.dataStep, h.coherent hc, fun _ => h.keepsEpoch⟩
  | restart enableCache verifySignature exportKey decoupled =>
    change DataStep C _ _ _ _ (rules.restart C _ _ _ _).safetyData? ∧
      (rules.restart C _ _ _ _).Coherent ∧ (_ → KeepsEpoch rules (rules.restart C _ _ _ _))
    rcases @restart_cases C rules enableCache verifySignature exportKey decoupled with
      heq | ⟨u, heq, hcoherent, hcontents, hnone, -⟩
    · rw [heq]
      exact ⟨.silent _, hc, fun _ => (Quiet.refl rules).keepsEpoch⟩
    · rw [heq]
      have hdata : u.safetyData? = rules.safetyData? := safetyData_of_contents hcontents
      exact ⟨hdata ▸ .silent _, hcoherent, fun _ =>
        keepsEpoch_of_contents (fun _ => hcoherent) hcontents (.inr hnone)⟩

theorem event_dataStep (hc : rules.Coherent) (call : RulesOp × List IoOutcome) :
    DataStep C (event C rules call).pre call.1 rules.safetyData? (event C rules call).output
        (event C rules call).post.safetyData? ∧
      (event C rules call).post.Coherent :=
  (@perform_effect C (rules.withOutcomes call.2) hc call.1).imp_right And.left

end SafetyRules

/-! ## The start of an epoch -/

/-- The rules of a validator that starts the epoch with fresh safety data. -/
def SafetyRules.entering (state : EpochState) (author : Author) (key : PrivateKey) :
    SafetyRules where
  persistentStorage := {
    enableCachedSafetyData := true
    cachedSafetyData := some (SafetyData.new state.epoch 0 0 0 none)
    internalStore := {
      refusesImport := false
      consensusKeys := [key]
      executionKey := none
      safetyData := some (SafetyData.new state.epoch 0 0 0 none)
      ownerAccount := some author
      waypoint := none
      outcomes := [] } }
  executionPublicKey := none
  exportConsensusKey := true
  validatorSigner := some (.signer author key)
  epochState := some state
  decoupledExecution := true

/-- A certificate without signatures, as for the genesis block. -/
def QuorumCert.unsigned (C : Crypto) (info : BlockInfo) : QuorumCert :=
  let voteData : VoteData := { proposed := info, parent := info }
  { voteData := voteData
    signedLedgerInfo := {
      ledgerInfo := { commitInfo := info, consensusDataHash := voteData.hash C }
      signatures := ∅ } }

/-- A vote as the certificate of a validator that is a quorum by itself. -/
def Vote.certificate (vote : Vote) : QuorumCert where
  voteData := vote.voteData
  signedLedgerInfo := {
    ledgerInfo := vote.ledgerInfo
    signatures := (∅ : BTreeMap AccountAddress Signature).insert vote.author vote.signature }

/-- An empty block over the certificate. -/
def QuorumCert.nilProposal (qc : QuorumCert) (round : Nat) : MaybeSignedVoteProposal where
  voteProposal := {
    accumulatorExtensionProof := { frozenSubtreeRoots := [], numLeaves := 0, leaves := [] }
    block := {
      blockData := {
        epoch := qc.certifiedBlock.epoch
        round := round
        timestampUsecs := qc.certifiedBlock.timestampUsecs
        quorumCert := qc
        blockType := .nilBlock }
      signature := none }
    nextEpochState := none }
  signature := none

abbrev QuorumCert.nilBlock (qc : QuorumCert) (round : Nat) : Block :=
  (qc.nilProposal round).voteProposal.block

end Loki.Diem
