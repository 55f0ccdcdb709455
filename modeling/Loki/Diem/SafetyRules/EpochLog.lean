import Loki.Diem.SafetyRules.Runs

/-!
# What a validator signs in one epoch

The log of a validator lists the votes and two-chain timeouts that it persisted in an epoch, each
with the safety data from before.  What was signed earlier bounds the safety data that the rules
check when they sign later.  The log is not part of the validator: it is what a run leaves behind.
-/

namespace Loki.Diem

open Loki.Foundation SafetyRules List

inductive Entry where
  | vote (data : SafetyData) (block : Block) (vote : Vote)
  | timeout (data : SafetyData) (repr : TimeoutSigningRepr)

namespace Entry

def data : Entry → SafetyData
  | .vote d _ _ => d
  | .timeout d _ => d

def Below : Entry → SafetyData → Prop
  | .vote _ block _, d => block.round ≤ d.lastVotedRound ∧
      block.quorumCert.certifiedBlock.round ≤ d.oneChainRound ∧
      block.quorumCert.parentBlock.round ≤ d.preferredRound
  | .timeout _ t, d => t.round ≤ d.lastVotedRound

def SignedBy (C : Crypto) (rules : SafetyRules) (op : RulesOp) : Entry → Prop
  | .vote d block v => op.Votes C rules d block v
  | .timeout d t => op.TimesOut d (.twoChainTimeout t)

theorem Below.mono {x : Entry} {d d'} (h : x.Below d)
    (hround : d.lastVotedRound ≤ d'.lastVotedRound) (hone : d.oneChainRound ≤ d'.oneChainRound)
    (hpreferred : d.preferredRound ≤ d'.preferredRound) : x.Below d' := by
  cases x with
  | vote => exact ⟨h.1.trans hround, h.2.1.trans hone, h.2.2.trans hpreferred⟩
  | timeout => exact Nat.le_trans h hround

end Entry

/-- The log of an epoch, latest entry first, of a validator that stores `data`. -/
structure EpochLog (epoch : Nat) (log : List Entry) (data : Option SafetyData) : Prop where
  below : ∀ x ∈ log, ∃ d, data = some d ∧ d.epoch = epoch ∧ x.Below d
  ordered : log.Pairwise fun later earlier => earlier.Below later.data
  last : ∀ d, data = some d → d.epoch = epoch → ∀ v, d.lastVote = some v →
    ∃ d' block, .vote d' block v ∈ log

namespace EpochLog

variable {epoch : Nat} {log : List Entry} {data : SafetyData}

section

variable (h : EpochLog epoch log (some data))

include h

theorem advance {data'} (hepoch : data'.epoch = data.epoch)
    (hround : data.lastVotedRound ≤ data'.lastVotedRound)
    (hone : data.oneChainRound ≤ data'.oneChainRound)
    (hpreferred : data.preferredRound ≤ data'.preferredRound)
    (hlast : data'.lastVote = data.lastVote) : EpochLog epoch log (some data') where
  below := by
    intro x hx
    obtain ⟨d, hd, hde, hbelow⟩ := h.below x hx
    cases hd
    exact ⟨data', rfl, hepoch.trans hde, hbelow.mono hround hone hpreferred⟩
  ordered := h.ordered
  last := by
    rintro d ⟨rfl⟩ hde v hv
    exact h.last data rfl (hepoch ▸ hde) v (hlast ▸ hv)

theorem raise {round} (hround : data.lastVotedRound < round) :
    EpochLog epoch log (some { data with lastVotedRound := round }) :=
  h.advance rfl hround.le le_rfl le_rfl rfl

theorem ordered_cons {entry : Entry} (hentry : entry.data = data) :
    (entry :: log).Pairwise fun x y => y.Below x.data := by
  refine pairwise_cons.mpr ⟨fun x hx => ?_, h.ordered⟩
  obtain ⟨d, hd, -, hbelow⟩ := h.below x hx
  cases hd
  exact hentry ▸ hbelow

theorem addVote {block} {vote} (hepoch : data.epoch = epoch)
    (hround : data.lastVotedRound < block.round) :
    EpochLog epoch (.vote data block vote :: log) (some (afterVote data block vote)) where
  below := by
    intro x hx
    refine ⟨_, rfl, hepoch, ?_⟩
    rcases mem_cons.mp hx with rfl | hmem
    · exact ⟨le_rfl, le_max_right _ _, le_max_right _ _⟩
    · obtain ⟨d, hd, -, hbelow⟩ := h.below x hmem
      cases hd
      exact hbelow.mono hround.le (le_max_left _ _) (le_max_left _ _)
  ordered := h.ordered_cons rfl
  last := by
    rintro d ⟨rfl⟩ - v hv
    obtain rfl : vote = v := Option.some.inj hv
    exact ⟨data, block, mem_cons_self⟩

theorem addTimeout {data'} (h' : EpochLog epoch log (some data')) {t} (hepoch : data'.epoch = epoch)
    (hround : t.round ≤ data'.lastVotedRound) :
    EpochLog epoch (.timeout data t :: log) (some data') where
  below := by
    intro x hx
    rcases mem_cons.mp hx with rfl | hmem
    · exact ⟨data', rfl, hepoch, hround⟩
    · exact h'.below x hmem
  ordered := h.ordered_cons rfl
  last := by
    intro d hd hde v hv
    obtain ⟨d', block, hmem⟩ := h'.last d hd hde v hv
    exact ⟨d', block, mem_cons_of_mem _ hmem⟩

theorem enter (newer : data.epoch < epoch) :
    EpochLog epoch log (some (SafetyData.new epoch 0 0 0 none)) := by
  have hempty : log = [] := by
    refine eq_nil_iff_forall_not_mem.mpr fun x hx => ?_
    obtain ⟨d, hd, _, -⟩ := h.below x hx
    cases hd
    omega
  subst hempty
  refine ⟨fun x hx => (nomatch hx), .nil, ?_⟩
  rintro d ⟨rfl⟩ - v hv
  cases hv

theorem ordered_cases {x y} (hx : x ∈ log) (hy : y ∈ log) :
    x = y ∨ x.Below y.data ∨ y.Below x.data := by
  by_cases heq : x = y
  · exact .inl heq
  · have hsymm : Std.Symm fun a b : Entry => a.Below b.data ∨ b.Below a.data :=
      ⟨fun _ _ => Or.symm⟩
    have hpairs : log.Pairwise fun a b => a.Below b.data ∨ b.Below a.data := h.ordered.imp Or.inr
    exact .inr (hpairs.forall hx hy heq)

end

end EpochLog

structure LogStep (C : Crypto) (rules : SafetyRules) (op : RulesOp) (epoch : Nat)
    (data : Option SafetyData) (output : Output) (log log' : List Entry) : Prop where
  grows : ∀ x ∈ log, x ∈ log'
  signed : ∀ x ∈ log', x ∈ log ∨ (x.SignedBy C rules op ∧ data = some x.data)
  votes : ∀ v, output = .vote v → ∃ d block, .vote d block v ∈ log'
  timeouts : ∀ t, output = .twoChainTimeout t → t.epoch = epoch → ∃ d, .timeout d t ∈ log'

section

variable {C : Crypto} {rules : SafetyRules} {op : RulesOp} {epoch : Nat} {log : List Entry}
  {data data' : Option SafetyData} {output : Output}

theorem LogStep.same (hvotes : ∀ v, output = .vote v → ∃ d block, .vote d block v ∈ log)
    (htimeouts : ∀ t, output = .twoChainTimeout t → t.epoch ≠ epoch) :
    LogStep C rules op epoch data output log log where
  grows := fun _ hx => hx
  signed := fun _ hx => .inl hx
  votes := hvotes
  timeouts := fun t ht hepoch => absurd hepoch (htimeouts t ht)

theorem LogStep.silent : LogStep C rules op epoch data .silent log log :=
  .same nofun nofun

theorem LogStep.add {x} (hsigned : x.SignedBy C rules op) (hdata : data = some x.data)
    (hvotes : ∀ v, output = .vote v → ∃ d block, x = .vote d block v)
    (htimeouts : ∀ t, output = .twoChainTimeout t → ∃ d, x = .timeout d t) :
    LogStep C rules op epoch data output log (x :: log) where
  grows := fun _ hx => mem_cons_of_mem _ hx
  signed := by
    intro y hy
    rcases mem_cons.mp hy with rfl | hmem
    · exact .inr ⟨hsigned, hdata⟩
    · exact .inl hmem
  votes := by
    intro v hv
    obtain ⟨d, block, rfl⟩ := hvotes v hv
    exact ⟨d, block, mem_cons_self⟩
  timeouts := by
    intro t ht _
    obtain ⟨d, rfl⟩ := htimeouts t ht
    exact ⟨d, mem_cons_self⟩

theorem EpochLog.timeout_step {d d' signed}
    (h : EpochLog epoch log (some d)) (h' : EpochLog epoch log (some d'))
    (hepoch : d'.epoch = d.epoch) (hsigns : op.TimesOut d signed)
    (hposition : signed.position = some (d.epoch, d'.lastVotedRound)) :
    ∃ log', EpochLog epoch log' (some d') ∧ LogStep C rules op epoch (some d) signed log log' := by
  by_cases htwo : ∃ t, signed = .twoChainTimeout t ∧ t.epoch = epoch
  · obtain ⟨t, rfl, hte⟩ := htwo
    simp only [Output.position, Option.some.injEq, Prod.mk.injEq] at hposition
    have hadd := h.addTimeout h' (by omega) hposition.2.le
    refine ⟨_, hadd, .add hsigns rfl (fun v hv => absurd hv (by simp)) ?_⟩
    rintro _ ⟨rfl⟩
    exact ⟨d, rfl⟩
  · refine ⟨log, h', .same (fun v hv => ?_) fun t ht hte => htwo ⟨t, ht, hte⟩⟩
    exact absurd hv (hsigns.ne_vote v)

/-- One call keeps the log in order and extends it by what it signs. -/
theorem EpochLog.step (h : EpochLog epoch log data) (hstep : DataStep C rules op data output data')
    (hactive : ∀ state d, rules.epochState = some state → data = some d → d.epoch = epoch)
    (henters : ∀ d e, op.Enters C rules d e → e = epoch) :
    ∃ log', EpochLog epoch log' data' ∧ LogStep C rules op epoch data output log log' := by
  cases hstep with
  | silent => exact ⟨log, h, .silent⟩
  | @sendBack d v state active stored =>
    refine ⟨log, h, .same (fun v' hv' => ?_) nofun⟩
    cases hv'
    exact h.last d rfl (hactive state d active rfl) v stored
  | @newVote d block v _ signs output_eq =>
    obtain ⟨state, hstate⟩ := signs.active
    have hadd : EpochLog epoch (.vote d block v :: log) (some (afterVote d block v)) :=
      h.addVote (hactive state d hstate rfl) signs.facts.1
    rcases output_eq with rfl | rfl
    · refine ⟨_, hadd, .add signs rfl (fun _ hv' => ?_) nofun⟩
      cases hv'
      exact ⟨d, block, rfl⟩
    · exact ⟨_, hadd, .add signs rfl nofun nofun⟩
  | repeatTimeout signs position => exact h.timeout_step h rfl signs position
  | raise signs position round_gt output_eq =>
    rcases output_eq with rfl | rfl
    · exact h.timeout_step (h.raise round_gt) rfl signs position
    · exact ⟨log, h.raise round_gt, .silent⟩
  | newEpoch enters newer =>
    obtain rfl := henters _ _ enters
    exact ⟨log, h.enter newer, .silent⟩

end

end Loki.Diem
