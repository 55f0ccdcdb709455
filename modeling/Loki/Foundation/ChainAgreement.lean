import Loki.Foundation.Quorum

/-!
# Agreement of chained voting

Members of a quorum system vote for blocks.  A block names its parent by a certificate, which
says in which round the parent is and in which round the parent's parent is.  An honest member
votes once in a round, and only for a block whose parent has been voted for by a quorum.

A committed block is an ancestor of every certified block that is not in a lower round, as soon
as the certified blocks of high rounds are kept from naming a parent below the committed one.
The three-chain protocol gets this from a lock that every voter keeps, the two-chain protocol
from a quorum of timeouts.
-/

namespace Loki.Foundation

def QuorumSystem.Certified {ι β : Type} [DecidableEq ι] (S : QuorumSystem ι)
    (voted : ι → β → Prop) (b : β) : Prop :=
  ∃ Q, S.IsQuorum Q ∧ ∀ i ∈ Q, i ∈ S.honest → voted i b

/-- Votes of honest members for blocks that name their parent by a certificate. -/
structure ChainedVoting (ι β : Type) [DecidableEq ι] extends QuorumSystem ι where
  round : β → ℕ
  qcRound : β → ℕ
  parentQcRound : β → ℕ
  parent : β → β → Prop
  voted : ι → β → Prop
  qcRound_lt : ∀ i ∈ honest, ∀ b, voted i b → qcRound b < round b
  one_vote : ∀ i ∈ honest, ∀ b c, voted i b → voted i c → round b = round c → b = c
  justified : ∀ i ∈ honest, ∀ b, voted i b → 0 < qcRound b →
    ∃ p, toQuorumSystem.Certified voted p ∧ parent p b ∧ round p = qcRound b

namespace ChainedVoting

variable {ι β : Type} [DecidableEq ι] {V : ChainedVoting ι β} {b b₀ b₁ b₂ c : β}

def Certified (V : ChainedVoting ι β) (b : β) : Prop := V.toQuorumSystem.Certified V.voted b

def Ancestor (V : ChainedVoting ι β) : β → β → Prop := Relation.ReflTransGen V.parent

theorem Certified.exists_voter (h : V.Certified b) : ∃ i ∈ V.honest, V.voted i b := by
  obtain ⟨Q, hQ, hvoted⟩ := h
  obtain ⟨i, hi, hmem⟩ := hQ.exists_honest_mem
  exact ⟨i, hi, hvoted i hmem hi⟩

theorem Certified.exists_common_voter (hb : V.Certified b) (hc : V.Certified c) :
    ∃ i ∈ V.honest, V.voted i b ∧ V.voted i c := by
  obtain ⟨Q, hQ, hvotedb⟩ := hb
  obtain ⟨R, hR, hvotedc⟩ := hc
  obtain ⟨i, hi, hiQ, hiR⟩ := hQ.exists_honest hR
  exact ⟨i, hi, hvotedb i hiQ hi, hvotedc i hiR hi⟩

theorem Certified.unique (hb : V.Certified b) (hc : V.Certified c)
    (hround : V.round b = V.round c) : b = c := by
  obtain ⟨i, hi, hvotedb, hvotedc⟩ := hb.exists_common_voter hc
  exact V.one_vote i hi b c hvotedb hvotedc hround

theorem ancestor_of_locked {top} (hpos : 0 < V.round b)
    (hbase : ∀ c, V.Certified c → V.round b ≤ V.round c → V.round c ≤ top → V.Ancestor b c)
    (hlocked : ∀ c, V.Certified c → top < V.round c → V.round b ≤ V.qcRound c)
    (hc : V.Certified c) (hle : V.round b ≤ V.round c) : V.Ancestor b c := by
  induction hround : V.round c using Nat.strong_induction_on generalizing c with
  | _ _ ih =>
    rcases le_or_gt (V.round c) top with htop | htop
    · exact hbase c hc hle htop
    · have hqc := hlocked c hc htop
      obtain ⟨i, hi, hvoted⟩ := hc.exists_voter
      obtain ⟨p, hp, hparent, _⟩ := V.justified i hi c hvoted (by omega)
      have hlt := V.qcRound_lt i hi c hvoted
      exact (ih (V.round p) (by omega) hp (by omega) rfl).tail hparent

/-- A certified block and a certified child of it in the next round. -/
structure NextRound (V : ChainedVoting ι β) (b c : β) : Prop where
  certified : V.Certified b
  certified_child : V.Certified c
  parent : V.parent b c
  round_eq : V.round c = V.round b + 1

theorem ancestor_of_two_chain (h : V.NextRound b₀ b₁) (hpos : 0 < V.round b₀)
    (hlocked : ∀ c, V.Certified c → V.round b₁ < V.round c → V.round b₀ ≤ V.qcRound c)
    (hc : V.Certified c) (hle : V.round b₀ ≤ V.round c) : V.Ancestor b₀ c := by
  have := h.round_eq
  refine ancestor_of_locked hpos (fun c hc hle _ => ?_) hlocked hc hle
  rcases Nat.lt_or_ge (V.round c) (V.round b₁) with _ | _
  · obtain rfl := h.certified.unique hc (by omega)
    exact .refl
  · obtain rfl := h.certified_child.unique hc (by omega)
    exact .single h.parent

theorem ancestor_of_three_chain (h₀ : V.NextRound b₀ b₁) (h₁ : V.NextRound b₁ b₂)
    (hpos : 0 < V.round b₀)
    (hlocked : ∀ c, V.Certified c → V.round b₂ < V.round c → V.round b₀ ≤ V.qcRound c)
    (hc : V.Certified c) (hle : V.round b₀ ≤ V.round c) : V.Ancestor b₀ c := by
  have := h₀.round_eq
  have := h₁.round_eq
  refine ancestor_of_locked hpos (fun c hc hle _ => ?_) hlocked hc hle
  rcases Nat.lt_trichotomy (V.round c) (V.round b₁) with _ | heq | _
  · obtain rfl := h₀.certified.unique hc (by omega)
    exact .refl
  · obtain rfl := h₁.certified.unique hc heq.symm
    exact .single h₀.parent
  · obtain rfl := h₁.certified_child.unique hc (by omega)
    exact (Relation.ReflTransGen.single h₀.parent).tail h₁.parent

end ChainedVoting

/-- Voters of the three-chain protocol do not vote below the grandparents of earlier votes. -/
structure LockedVoting (ι β : Type) [DecidableEq ι] extends ChainedVoting ι β where
  lock_le : ∀ i ∈ honest, ∀ b c, voted i b → voted i c → round b < round c →
    parentQcRound b ≤ qcRound c

namespace LockedVoting

variable {ι β : Type} [DecidableEq ι] {V : LockedVoting ι β} {b₀ b₁ b₂ c : β}

theorem ancestor_of_commit (h₀ : V.NextRound b₀ b₁) (h₁ : V.NextRound b₁ b₂)
    (hlock : V.parentQcRound b₂ = V.round b₀) (hpos : 0 < V.round b₀)
    (hc : V.Certified c) (hle : V.round b₀ ≤ V.round c) : V.Ancestor b₀ c := by
  refine ChainedVoting.ancestor_of_three_chain h₀ h₁ hpos (fun c hc hlt => ?_) hc hle
  obtain ⟨i, hi, hvoted₂, hvoted⟩ := h₁.certified_child.exists_common_voter hc
  rw [← hlock]
  exact V.lock_le i hi b₂ c hvoted₂ hvoted hlt

end LockedVoting

/-- Voters of the two-chain protocol that do not vote for a child of the round before have seen a
quorum of timeouts, none of which knows a higher certificate than the block. -/
structure TimedVoting (ι β : Type) [DecidableEq ι] extends ChainedVoting ι β where
  timedOut : ι → ℕ → ℕ → Prop
  timeout_ge : ∀ i ∈ honest, ∀ b t h, voted i b → timedOut i t h → round b ≤ t → qcRound b ≤ h
  safe : ∀ i ∈ honest, ∀ c, voted i c → round c = qcRound c + 1 ∨
    ∃ Q t, toQuorumSystem.IsQuorum Q ∧ round c = t + 1 ∧
      ∀ j ∈ Q, j ∈ honest → ∃ h ≤ qcRound c, timedOut j t h

namespace TimedVoting

variable {ι β : Type} [DecidableEq ι] {V : TimedVoting ι β} {b b₀ b₁ c : β}

theorem qcRound_le (hb : V.Certified b) (hc : V.Certified c) (hlt : V.round b < V.round c) :
    V.qcRound b ≤ V.qcRound c := by
  obtain ⟨i, hi, hvotedb, hvotedc⟩ := hb.exists_common_voter hc
  have hbelow := V.qcRound_lt i hi b hvotedb
  rcases V.safe i hi c hvotedc with _ | ⟨R, t, hR, _, htimeouts⟩
  · omega
  · obtain ⟨Q, hQ, hvoted⟩ := hb
    obtain ⟨j, hj, hjQ, hjR⟩ := hQ.exists_honest hR
    obtain ⟨h, hle, htimeout⟩ := htimeouts j hjR hj
    exact (V.timeout_ge j hj b t h (hvoted j hjQ hj) htimeout (by omega)).trans hle

theorem ancestor_of_commit (h : V.NextRound b₀ b₁) (hqc : V.qcRound b₁ = V.round b₀)
    (hpos : 0 < V.round b₀) (hc : V.Certified c) (hle : V.round b₀ ≤ V.round c) :
    V.Ancestor b₀ c := by
  refine ChainedVoting.ancestor_of_two_chain h hpos (fun c hc hlt => ?_) hc hle
  rw [← hqc]
  exact qcRound_le h.certified_child hc hlt

end TimedVoting

end Loki.Foundation
