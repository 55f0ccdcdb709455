import Loki.Diem.SafetyRules.Cache
import Loki.Diem.SafetyRules.Runs

/-!
# No double vote

Over any run of the safety rules, with restarts and with failing writes and signatures, at most
one vote is handed out for a round of an epoch, a new vote is in a higher round than all votes
and timeouts before it, and the stored rounds only grow within an epoch.

The invariant relates the stored safety data to everything handed out so far.  The last vote may
be stored without having been handed out, when the write was reported as failed; it is still the
only vote that can be sent back for its round.
-/

namespace Loki.Diem

open Loki.Foundation SafetyRules PersistentSafetyStorage Option List

def SafetyData.Le (data data' : SafetyData) : Prop :=
  data.epoch < data'.epoch ∨
    (data.epoch = data'.epoch ∧ data.lastVotedRound ≤ data'.lastVotedRound ∧
      data.preferredRound ≤ data'.preferredRound ∧ data.oneChainRound ≤ data'.oneChainRound)

theorem SafetyData.Le.refl (data : SafetyData) : data.Le data := .inr ⟨rfl, le_rfl, le_rfl, le_rfl⟩

namespace SafetyRules

def Event.NewlySigned (event : Event) (vote : Vote) : Prop :=
  event.output = .vote vote ∧
    ∀ data, event.pre.safetyData? = some data → data.lastVote ≠ some vote

structure SafeTrace (events : List Event) : Prop where
  votes_unique : ∀ event ∈ events, ∀ event' ∈ events, ∀ vote vote',
    event.output = .vote vote → event'.output = .vote vote' →
      vote.epoch = vote'.epoch → vote.round = vote'.round → vote = vote'
  new_vote_gt : events.Pairwise fun earlier later => ∀ vote, later.NewlySigned vote →
    ∀ epoch round, earlier.output.position = some (epoch, round) → epoch = vote.epoch →
      round < vote.round
  stored_le : ∀ event ∈ events, ∀ data, event.pre.safetyData? = some data →
    ∃ data', event.post.safetyData? = some data' ∧ data.Le data'

end SafetyRules

def SafetyData.Consistent (data : SafetyData) : Prop :=
  ∀ vote ∈ data.lastVote, vote.epoch = data.epoch ∧ vote.round ≤ data.lastVotedRound

/-- The storage of a first start: over a store that earlier runs left behind, or initialised over
a store without keys. -/
inductive PersistentSafetyStorage.Opened : PersistentSafetyStorage → Prop
  | existing {store : SecureStorage} (enable : Bool)
      (consistent : ∀ data ∈ store.safetyData, data.Consistent) : Opened (.new store enable)
  | fresh {store : SecureStorage} {author : Author} {consensusKey executionKey : PrivateKey}
      {w : Waypoint} {enable : Bool} {storage : PersistentSafetyStorage}
      (no_key : store.consensusKeys = [])
      (built : initializeStorage store author consensusKey executionKey w enable = some storage) :
      Opened storage

theorem PersistentSafetyStorage.Opened.spec {storage : PersistentSafetyStorage}
    (h : storage.Opened) :
    storage.Coherent ∧ ∀ data ∈ storage.internalStore.safetyData, data.Consistent := by
  cases h with
  | existing _ consistent => exact ⟨new_coherent _ _, consistent⟩
  | fresh no_key built =>
    obtain ⟨-, hcached, -, hstored⟩ := initializeStorage_spec built
    have hdata := hstored fun hkeeps => hkeeps.has_key no_key
    refine ⟨fun data hdata' => ?_, fun _ hdata' _ hvote => ?_⟩
    · rw [hdata, ← hcached, hdata']
    · rw [hdata] at hdata'
      cases hdata'
      cases hvote

/-- What has been handed out so far, in the past of a store that holds `data`. -/
structure HandedOut (events : List Event) (data : Option SafetyData) : Prop where
  position_le : ∀ event ∈ events, ∀ epoch round, event.output.position = some (epoch, round) →
    ∃ d, data = some d ∧ (epoch < d.epoch ∨ (epoch = d.epoch ∧ round ≤ d.lastVotedRound))
  consistent : ∀ d ∈ data, d.Consistent
  last_unique : ∀ d ∈ data, ∀ last ∈ d.lastVote, ∀ event ∈ events, ∀ vote,
    event.output = .vote vote → vote.epoch = last.epoch → vote.round = last.round → vote = last

theorem DataStep.lastVote {C rules op data data' vote}
    (hstep : DataStep C rules op data (.vote vote) data') :
    ∃ d, data' = some d ∧ d.lastVote = some vote := by
  cases hstep with
  | sendBack _ stored => exact ⟨_, rfl, stored⟩
  | newVote _ output_eq =>
    rcases output_eq with heq | heq
    · cases heq
      exact ⟨_, rfl, rfl⟩
    · cases heq
  | repeatTimeout signs => exact absurd rfl (signs.ne_vote vote)
  | raise signs _ _ output_eq =>
    rcases output_eq with heq | heq
    · exact absurd heq.symm (signs.ne_vote vote)
    · cases heq

namespace HandedOut

variable {C : Crypto} {rules : SafetyRules} {op : RulesOp} {events : List Event} {event : Event}
  {data : SafetyData} {epoch round : Nat} {vote : Vote} {data' : Option SafetyData}

section

variable (h : HandedOut events (some data))

include h

theorem lt_of_newRound {r : Nat} (hr : data.lastVotedRound < r) (hevent : event ∈ events)
    (hposition : event.output.position = some (epoch, round)) (hepoch : epoch = data.epoch) :
    round < r := by
  obtain ⟨d, hd, _ | ⟨-, _⟩⟩ := h.position_le event hevent epoch round hposition
  · cases hd
    omega
  · cases hd
    omega

theorem raise (hround : data.lastVotedRound < round) :
    HandedOut events (some { data with lastVotedRound := round }) where
  position_le := by
    intro event hevent e r hposition
    obtain ⟨d, hd, _⟩ := h.position_le event hevent e r hposition
    cases hd
    refine ⟨_, rfl, ?_⟩
    dsimp only
    omega
  consistent := by
    rintro d ⟨rfl⟩ vote hvote
    obtain ⟨hepoch, hle⟩ := h.consistent data rfl vote hvote
    exact ⟨hepoch, hle.trans hround.le⟩
  last_unique := by
    rintro d ⟨rfl⟩
    exact h.last_unique data rfl

theorem replaceLast {block} (hround : data.lastVotedRound < block.round)
    (hepoch : vote.epoch = data.epoch) (hblock : vote.round = block.round) :
    HandedOut events (some (afterVote data block vote)) where
  position_le := by
    intro event hevent e r hposition
    obtain ⟨d, hd, _⟩ := h.position_le event hevent e r hposition
    cases hd
    refine ⟨_, rfl, ?_⟩
    change e < data.epoch ∨ (e = data.epoch ∧ r ≤ block.round)
    omega
  consistent := by
    rintro d ⟨rfl⟩ v hv
    obtain rfl : vote = v := some.inj hv
    exact ⟨hepoch, hblock.le⟩
  last_unique := by
    -- nothing handed out so far can be in the round of the new vote
    rintro d ⟨rfl⟩ last hlast event hevent v hv hve _
    obtain rfl : vote = last := some.inj hlast
    have hlt : v.round < block.round :=
      h.lt_of_newRound hround hevent (hv ▸ rfl) (hve.trans hepoch)
    omega

theorem newEpoch (newer : data.epoch < epoch) :
    HandedOut events (some (SafetyData.new epoch 0 0 0 none)) where
  position_le := by
    intro event hevent e r hposition
    obtain ⟨d, hd, _⟩ := h.position_le event hevent e r hposition
    cases hd
    exact ⟨_, rfl, .inl (show e < epoch by omega)⟩
  consistent := by
    rintro d ⟨rfl⟩ _ hvote
    cases hvote
  last_unique := by
    rintro d ⟨rfl⟩ _ hlast
    cases hlast

end

/-- A vote is handed out after it is stored, and a timeout after its round is. -/
theorem handOut {data} (h : HandedOut events data) (hvote : ∀ vote, event.output = .vote vote →
      ∃ d, data = some d ∧ d.lastVote = some vote)
    (hposition : ∀ epoch round, event.output.position = some (epoch, round) →
      ∃ d, data = some d ∧ epoch = d.epoch ∧ round ≤ d.lastVotedRound) :
    HandedOut (events ++ [event]) data where
  position_le := by
    intro other hother e r hpos
    rcases mem_append.mp hother with hmem | hmem
    · exact h.position_le other hmem e r hpos
    · obtain rfl := mem_singleton.mp hmem
      obtain ⟨d, hd, hle⟩ := hposition e r hpos
      exact ⟨d, hd, .inr hle⟩
  consistent := h.consistent
  last_unique := by
    intro d hd last hlast other hother v hv hepoch hround
    rcases mem_append.mp hother with hmem | hmem
    · exact h.last_unique d hd last hlast other hmem v hv hepoch hround
    · obtain rfl := mem_singleton.mp hmem
      obtain ⟨d', hd', hlast'⟩ := hvote v hv
      obtain rfl := some.inj (hd.symm.trans hd')
      exact some.inj (hlast'.symm.trans hlast)

/-- One step of the rules keeps the invariant, with what the step hands out. -/
theorem step {data} (h : HandedOut events data)
    (hstep : DataStep C rules op data event.output data') :
    HandedOut (events ++ [event]) data' := by
  have hvote : ∀ vote, event.output = .vote vote → ∃ d, data' = some d ∧ d.lastVote = some vote :=
    fun vote hv => (hv ▸ hstep).lastVote
  suffices hnext : HandedOut events data' ∧ ((∀ vote, event.output ≠ .vote vote) →
      ∀ epoch round, event.output.position = some (epoch, round) →
        ∃ d, data' = some d ∧ epoch = d.epoch ∧ round ≤ d.lastVotedRound) by
    refine hnext.1.handOut hvote fun epoch round hpos => ?_
    by_cases hout : ∃ vote, event.output = .vote vote
    · obtain ⟨vote, hv⟩ := hout
      obtain ⟨d, hd, hlast⟩ := hvote vote hv
      rw [hv] at hpos
      cases hpos
      exact ⟨d, hd, hnext.1.consistent d hd vote hlast⟩
    · exact hnext.2 (not_exists.mp hout) epoch round hpos
  generalize event.output = output at hstep
  cases hstep with
  | silent => exact ⟨h, nofun⟩
  | sendBack => exact ⟨h, fun hne => absurd rfl (hne _)⟩
  | newVote signs output_eq =>
    obtain ⟨hround, hepoch, hblock⟩ := signs.facts
    refine ⟨h.replaceLast hround hepoch hblock, fun hne => ?_⟩
    rcases output_eq with rfl | rfl
    · exact absurd rfl (hne _)
    · exact nofun
  | repeatTimeout _ position =>
    refine ⟨h, fun _ epoch round hpos => ?_⟩
    cases position.symm.trans hpos
    exact ⟨_, rfl, rfl, le_rfl⟩
  | raise _ position round_gt output_eq =>
    refine ⟨h.raise round_gt, fun _ epoch round hpos => ?_⟩
    rcases output_eq with rfl | rfl
    · cases position.symm.trans hpos
      exact ⟨_, rfl, rfl, le_rfl⟩
    · cases hpos
  | newEpoch _ newer => exact ⟨h.newEpoch newer, nofun⟩

theorem newVote_gt {data : Option SafetyData} (h : HandedOut events data)
    (hstep : DataStep C rules op data (.vote vote) data')
    (hnew : ∀ d, data = some d → d.lastVote ≠ some vote) (hevent : event ∈ events)
    (hposition : event.output.position = some (epoch, round)) (hepoch : epoch = vote.epoch) :
    round < vote.round := by
  cases hstep with
  | sendBack _ stored => exact absurd stored (hnew _ rfl)
  | newVote signs output_eq =>
    obtain ⟨hround, hvoteEpoch, hblock⟩ := signs.facts
    rcases output_eq with houtput | houtput
    · obtain rfl := Output.vote.inj houtput
      rw [hblock]
      exact h.lt_of_newRound hround hevent hposition (hepoch.trans hvoteEpoch)
    · cases houtput
  | repeatTimeout signs => exact absurd rfl (signs.ne_vote vote)
  | raise signs _ _ output_eq =>
    rcases output_eq with houtput | houtput
    · exact absurd houtput.symm (signs.ne_vote vote)
    · cases houtput

end HandedOut

theorem DataStep.le {C rules op data data' output} (hstep : DataStep C rules op data output data')
    {d} (hd : data = some d) : ∃ d', data' = some d' ∧ d.Le d' := by
  cases hstep with
  | silent => exact ⟨d, hd, .refl d⟩
  | sendBack | repeatTimeout => exact ⟨_, rfl, some.inj hd ▸ .refl _⟩
  | newVote signs =>
    cases hd
    exact ⟨_, rfl, .inr ⟨rfl, signs.facts.1.le, le_max_left _ _, le_max_left _ _⟩⟩
  | raise _ _ round_gt =>
    cases hd
    exact ⟨_, rfl, .inr ⟨rfl, round_gt.le, le_rfl, le_rfl⟩⟩
  | newEpoch _ newer =>
    cases hd
    exact ⟨_, rfl, .inl newer⟩

namespace SafetyRules

variable {C : Crypto} {rules : SafetyRules}

theorem SafeTrace.snoc {events event} (h : SafeTrace events)
    (hout : HandedOut events event.pre.safetyData?)
    (hstep : DataStep C rules event.op event.pre.safetyData? event.output event.post.safetyData?) :
    SafeTrace (events ++ [event]) := by
  have hunique : ∀ other ∈ events, ∀ vote vote', other.output = .vote vote →
      event.output = .vote vote' → vote.epoch = vote'.epoch → vote.round = vote'.round →
        vote = vote' := by
    intro other hmem vote vote' hvote hvote'
    obtain ⟨d, hd, hlast⟩ := (hvote' ▸ hstep).lastVote
    exact (hout.step hstep).last_unique d hd vote' hlast other (mem_append_left _ hmem) vote hvote
  refine ⟨fun e he e' he' vote vote' hvote hvote' hepoch hround => ?_, ?_, fun e he => ?_⟩
  · rcases mem_append.mp he with hmem | hmem <;> rcases mem_append.mp he' with hmem' | hmem'
    · exact h.votes_unique e hmem e' hmem' vote vote' hvote hvote' hepoch hround
    · obtain rfl := mem_singleton.mp hmem'
      exact hunique e hmem vote vote' hvote hvote' hepoch hround
    · obtain rfl := mem_singleton.mp hmem
      exact (hunique e' hmem' vote' vote hvote' hvote hepoch.symm hround.symm).symm
    · obtain rfl := mem_singleton.mp hmem
      obtain rfl := mem_singleton.mp hmem'
      exact Output.vote.inj (hvote.symm.trans hvote')
  · refine pairwise_append.mpr ⟨h.new_vote_gt, pairwise_singleton _ _, fun e he later hlater => ?_⟩
    obtain rfl := mem_singleton.mp hlater
    intro vote hnew epoch round hposition hepoch
    exact hout.newVote_gt (hnew.1 ▸ hstep) hnew.2 he hposition hepoch
  · rcases mem_append.mp he with hmem | hmem
    · exact h.stored_le e hmem
    · obtain rfl := mem_singleton.mp hmem
      exact fun data hdata => hstep.le hdata

theorem trace_safe (calls : List (RulesOp × List IoOutcome)) :
    ∀ rules events, rules.Coherent → SafeTrace events → HandedOut events rules.safetyData? →
      SafeTrace (events ++ trace C rules calls) := by
  induction calls with
  | nil =>
    intro rules events hc hsafe h
    rw [trace, append_nil]
    exact hsafe
  | cons call _ ih =>
    intro rules events hc hsafe h
    obtain ⟨hstep, hpost⟩ := event_dataStep hc call
    rw [trace, append_cons]
    exact ih _ _ hpost (hsafe.snoc h hstep) (h.step hstep)

/-- Every run of the safety rules, with faults and restarts, is safe. -/
theorem trace_safeTrace (C : Crypto) (storage : PersistentSafetyStorage) (hopened : storage.Opened)
    (verifySignature exportKey decoupled : Bool) (rules : SafetyRules)
    (hnew : new C storage verifySignature exportKey decoupled = some rules)
    (calls : List (RulesOp × List IoOutcome)) : SafeTrace (trace C rules calls) := by
  obtain ⟨hcoherent, hconsistent⟩ := hopened.spec
  obtain ⟨hc, hcontents, -⟩ := new_spec hcoherent hnew
  have hdata : rules.safetyData? = storage.internalStore.safetyData :=
    safetyData_of_contents hcontents
  have hstart : HandedOut [] rules.safetyData? := ⟨by simp, hdata ▸ hconsistent, by simp⟩
  rw [← nil_append (trace C rules calls)]
  exact trace_safe calls rules [] hc ⟨by simp, .nil, by simp⟩ hstart

def soleGenesis : LedgerInfo where
  commitInfo := { BlockInfo.empty with
    nextEpochState := some { epoch := 1, verifier := .sole } }
  consensusDataHash := 0

def soleProposal (certified : BlockInfo) : MaybeSignedVoteProposal :=
  (QuorumCert.unsigned .concrete certified).nilProposal 1

/-- Start the epoch, vote with a write that is reported as failed, come up again, start the epoch
again and ask for the vote again. -/
def soleCalls : List (RulesOp × List IoOutcome) :=
  let start : RulesOp := .initializeRules
    { ledgerInfoWithSigs := [{ ledgerInfo := soleGenesis, signatures := ∅ }], more := false }
  let vote : RulesOp := .constructAndSignVote 0
    (soleProposal (QuorumCert.genesisBlockInfo soleGenesis 0))
  [(start, []), (vote, [.failed .permissionDenied true]), (.restart true false true true, []),
    (start, []), (vote, [])]

theorem trace_safeTrace_soleCalls :
    ∃ storage rules,
      initializeStorage freshVault 1 7 8 { version := 0, value := 0 } true = some storage ∧
      new .concrete storage false true true = some rules ∧
      ((trace .concrete rules soleCalls).filterMap fun event =>
        match event.output with
        | .vote vote => some (vote.epoch, vote.round)
        | _ => none) = [(1, 1)] ∧
      SafeTrace (trace .concrete rules soleCalls) :=
  ⟨_, _, rfl, rfl, by decide +kernel, trace_safeTrace .concrete _
    (@Opened.fresh freshVault _ _ _ _ _ _ rfl rfl) false true true _ rfl soleCalls⟩

end SafetyRules

end Loki.Diem
