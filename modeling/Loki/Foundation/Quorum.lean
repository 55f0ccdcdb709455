import Mathlib.Algebra.Order.BigOperators.Group.Finset

/-!
# Weighted quorums

Members of a finite set have a weight.  A set is a quorum when it holds more than two thirds of
the total weight, and the members that do not follow the protocol hold less than one third.
-/

namespace Loki.Foundation

open Finset

/-- The weights of a finite set of members, and which of them follow the protocol. -/
structure QuorumSystem (ι : Type) [DecidableEq ι] where
  members : Finset ι
  weight : ι → ℕ
  honest : Finset ι
  faulty_lt : 3 * ∑ i ∈ members \ honest, weight i < ∑ i ∈ members, weight i

namespace QuorumSystem

variable {ι : Type} [DecidableEq ι] {S : QuorumSystem ι} {Q R : Finset ι}

def IsQuorum (S : QuorumSystem ι) (Q : Finset ι) : Prop :=
  Q ⊆ S.members ∧ 2 * ∑ i ∈ S.members, S.weight i < 3 * ∑ i ∈ Q, S.weight i

theorem IsQuorum.inter_weight (hQ : S.IsQuorum Q) (hR : S.IsQuorum R) :
    ∑ i ∈ S.members, S.weight i < 3 * ∑ i ∈ Q ∩ R, S.weight i := by
  have hsplit : ∑ i ∈ Q ∪ R, S.weight i + ∑ i ∈ Q ∩ R, S.weight i =
      ∑ i ∈ Q, S.weight i + ∑ i ∈ R, S.weight i := sum_union_inter
  have hunion : ∑ i ∈ Q ∪ R, S.weight i ≤ ∑ i ∈ S.members, S.weight i :=
    sum_le_sum_of_subset (union_subset hQ.1 hR.1)
  have hQw := hQ.2
  have hRw := hR.2
  omega

theorem IsQuorum.exists_honest (hQ : S.IsQuorum Q) (hR : S.IsQuorum R) :
    ∃ i ∈ S.honest, i ∈ Q ∧ i ∈ R := by
  by_contra hnone
  push Not at hnone
  have hsub : Q ∩ R ⊆ S.members \ S.honest := by
    intro i hi
    rw [mem_inter] at hi
    exact mem_sdiff.mpr ⟨hQ.1 hi.1, fun hh => hnone i hh hi.1 hi.2⟩
  have hle : ∑ i ∈ Q ∩ R, S.weight i ≤ ∑ i ∈ S.members \ S.honest, S.weight i :=
    sum_le_sum_of_subset hsub
  have hinter := hQ.inter_weight hR
  have hfaulty := S.faulty_lt
  omega

theorem IsQuorum.exists_honest_mem (hQ : S.IsQuorum Q) : ∃ i ∈ S.honest, i ∈ Q := by
  obtain ⟨i, hh, hi, -⟩ := hQ.exists_honest hQ
  exact ⟨i, hh, hi⟩

end QuorumSystem

end Loki.Foundation
