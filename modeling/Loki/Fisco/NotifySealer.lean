import Mathlib.Algebra.Order.Ring.Int
import Mathlib.Data.Int.DivMod
import Mathlib.Tactic.SplitIfs

/-!
# Sealing ranges

`PBFTConfig::notifySealer` without `_enforce`.  The period, the view and the node count are
`uint64_t`, so the end of a range is computed without a sign and then read as an `int64_t`.
-/

namespace Loki.Fisco

/-- A call and what it reads of the configuration.  Block numbers are not negative. -/
structure NotifySealer where
  progressedIndex : Nat
  leaderSwitchPeriod : Nat
  leaderSwitchPeriod_pos : 1 ≤ leaderSwitchPeriod
  (view consensusNodeNum nodeIndex resettingProposalSize : Nat)
  (highWaterMark committedIndex waitSealUntil waitResealUntil : Int)

namespace NotifySealer

variable (c : NotifySealer) (sealEndIndex : Int)

def leaderIndex (proposalIndex : Int) : Nat :=
  ((proposalIndex % 2 ^ 64).toNat / c.leaderSwitchPeriod + c.view) % 2 ^ 64 % c.consensusNodeNum

def canHandleNewProposal : Bool :=
  c.waitSealUntil ≤ c.committedIndex && c.waitResealUntil ≤ c.committedIndex

/-- The end of the leader's period: computed modulo `2 ^ 64`, then read with a sign. -/
def periodEnd : Int :=
  Int.bmod ((c.progressedIndex / c.leaderSwitchPeriod + 1) * c.leaderSwitchPeriod - 1) (2 ^ 64)

def endProposalIndex : Int := min c.periodEnd (c.highWaterMark - 1)

def startSealIndex : Int := max (sealEndIndex + 1) c.progressedIndex

/-- The range passed to the sealer; its end is the next `m_sealEndIndex`. -/
def notifySealer : Option (Int × Int) :=
  if c.leaderIndex c.progressedIndex ≠ c.nodeIndex then none
  else if !c.canHandleNewProposal then none
  else if c.endProposalIndex ≤ sealEndIndex then none
  else if c.endProposalIndex < c.startSealIndex sealEndIndex then none
  else if 0 < c.resettingProposalSize ∧ c.committedIndex + 1 < c.startSealIndex sealEndIndex then
    none
  else some (c.startSealIndex sealEndIndex, c.endProposalIndex)

/-- The ranges of the calls after a reset that left `m_sealEndIndex` as it is given. -/
def run (sealEndIndex : Int) : List NotifySealer → List (Int × Int)
  | [] => []
  | c :: calls =>
    match c.notifySealer sealEndIndex with
    | none => run sealEndIndex calls
    | some range => range :: run range.2 calls

variable {c} {sealEndIndex} {range : Int × Int}

theorem notifySealer_eq_some (h : c.notifySealer sealEndIndex = some range) :
    range = (c.startSealIndex sealEndIndex, c.endProposalIndex) ∧ range.1 ≤ range.2 ∧
      c.leaderIndex c.progressedIndex = c.nodeIndex := by
  unfold notifySealer at h
  split_ifs at h with hleader _ _ horder
  obtain rfl := Option.some.inj h
  exact ⟨rfl, Int.not_lt.mp horder, Decidable.not_not.mp hleader⟩

theorem leaderIndex_eq {i : Int} (hle : c.progressedIndex ≤ i) (hend : i ≤ c.periodEnd) :
    c.leaderIndex i = c.leaderIndex c.progressedIndex := by
  obtain ⟨n, rfl⟩ := Int.eq_ofNat_of_zero_le (Int.le_trans (Int.natCast_nonneg _) hle)
  have hlt : (n : Int) < 2 ^ 63 := Int.lt_of_le_of_lt hend (Int.bmod_lt (by decide))
  -- wrapping around only lowers the end
  have hbound : (n : Int) <
      (c.progressedIndex / c.leaderSwitchPeriod + 1) * c.leaderSwitchPeriod := by
    have hpos := Int.natCast_pos.mpr
      (Nat.mul_pos (c.progressedIndex / c.leaderSwitchPeriod).succ_pos c.leaderSwitchPeriod_pos)
    push_cast at hpos
    rw [periodEnd, Int.bmod_def] at hend
    omega
  have hdiv : n / c.leaderSwitchPeriod = c.progressedIndex / c.leaderSwitchPeriod := by
    refine Nat.le_antisymm ?_ (Nat.div_le_div_right (Int.ofNat_le.mp hle))
    exact Nat.le_of_lt_succ ((Nat.div_lt_iff_lt_mul c.leaderSwitchPeriod_pos).mpr (mod_cast hbound))
  have hn : ((n : Int) % 2 ^ 64).toNat = n := by omega
  have hp : ((c.progressedIndex : Int) % 2 ^ 64).toNat = c.progressedIndex := by omega
  rw [leaderIndex, leaderIndex, hn, hp, hdiv]

theorem run_increasing (sealEndIndex : Int) (calls : List NotifySealer) :
    (run sealEndIndex calls).Pairwise (fun r r' => r.2 < r'.1) ∧
      ∀ r ∈ run sealEndIndex calls, sealEndIndex < r.1 := by
  induction calls generalizing sealEndIndex with
  | nil => simp [run]
  | cons _ _ ih =>
    simp only [run]
    split
    · exact ih _
    · next range hrange =>
      obtain ⟨heq, _, -⟩ := notifySealer_eq_some hrange
      obtain ⟨hpairwise, hlater⟩ := ih range.2
      have hstart : sealEndIndex < range.1 := by
        rw [heq, startSealIndex]
        omega
      refine ⟨.cons hlater hpairwise, List.forall_mem_cons.mpr ⟨hstart, fun r hr => ?_⟩⟩
      have hr := hlater r hr
      omega

theorem notifySealer_grants_own_indices :
    (∀ c sealEndIndex range, notifySealer c sealEndIndex = some range →
      range.1 ≤ range.2 ∧ range.2 < c.highWaterMark ∧
        ∀ i, range.1 ≤ i → i ≤ range.2 → c.leaderIndex i = c.nodeIndex) ∧
    ∀ sealEndIndex calls, (run sealEndIndex calls).Pairwise fun r r' => r.2 < r'.1 := by
  refine ⟨fun c _ _ h => ?_, fun _ _ => (run_increasing _ _).1⟩
  obtain ⟨heq, hle, hleader⟩ := notifySealer_eq_some h
  refine ⟨hle, ?_, fun i hstart hend => ?_⟩
  · rw [heq, endProposalIndex]
    omega
  · rw [heq] at hstart hend
    simp only [startSealIndex, endProposalIndex] at hstart hend
    rw [leaderIndex_eq (by omega) (by omega), hleader]

end NotifySealer

end Loki.Fisco
