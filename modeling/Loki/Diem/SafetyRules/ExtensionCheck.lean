import Loki.Diem.AccumulatorProof
import Loki.Diem.SafetyRules.Certified

/-!
# The version a validator signs

`extension_check` learns the number of leaves of the certified accumulator from the proposer, and
checks it only through the root hash.  The hash does not determine the number: the nodes of a tree
some levels above its leaves are an accumulator with the same root, and trailing zeros of the
number do not enter the hash at all.
-/

namespace Loki.Diem

open Loki.Foundation MerkleTree MerkleCounter List Except AccumulatorExtensionProof Nat VoteProposal
open SafetyRules (extensionCheck soleRules)

namespace InMemoryAccumulator

variable {C : Crypto} {digits : Counter HashValue} {n m : Nat} {acc acc' : InMemoryAccumulator}
  {roots leaves : List HashValue} {more : List HashValue}

/-! ## Trailing zeros -/

theorem trailingZeros_two_mul (h : 0 < n) : trailingZeros (2 * n) = trailingZeros n + 1 := by
  rw [trailingZeros, trailingZeros, if_neg (by omega), if_neg h.ne', bit0_bits n h.ne']
  simp

theorem countOnes_two_mul (h : 0 < n) : countOnes (2 * n) = countOnes n := by
  rw [countOnes, countOnes, bit0_bits n h.ne']
  simp

theorem computeRootHash_two_mul (roots : List HashValue) (h : 0 < n) :
    computeRootHash C roots (2 * n) = computeRootHash C roots n := by
  rcases roots with _ | ⟨_, _ | ⟨_, _⟩⟩
  · rfl
  · rfl
  · simp only [computeRootHash]
    rw [trailingZeros_two_mul h, Nat.pow_succ', Nat.mul_div_mul_left _ _ (by decide)]

theorem new_two_mul (hn : 0 < n) (hnew : new C roots n = .ok acc) :
    new C roots (2 * n) = .ok { acc with numLeaves := 2 * n } := by
  simp only [new, bind_eq_ok, ensure_eq_ok, pure_eq_ok] at hnew ⊢
  obtain ⟨_, hlength, hash, hhash, rfl⟩ := hnew
  exact ⟨(), hlength.trans (countOnes_two_mul hn).symm, hash,
    (computeRootHash_two_mul roots hn).trans hhash, rfl⟩

theorem new_two_pow_mul (t : Nat) (hn : 0 < n) (hnew : new C roots n = .ok acc) :
    new C roots (2 ^ t * n) = .ok { acc with numLeaves := 2 ^ t * n } := by
  induction t with
  | zero =>
    have hnum : acc.numLeaves = n := (new_spec hnew).2.1
    subst hnum
    simpa using hnew
  | succ t ih =>
    have hpos : 0 < 2 ^ t * n := Nat.mul_pos (Nat.two_pow_pos t) hn
    have hdouble := new_two_mul hpos ih
    rw [Nat.pow_succ', Nat.mul_assoc]
    exact hdouble

/-! ## Numbers of leaves with one root -/

/-- A number of leaves under which the root of `n` leaves can be presented: the nodes of some level,
with zeros appended. -/
def Presents (m n : Nat) : Prop := ∃ s t, m = 2 ^ t * ((n - 1) / 2 ^ s + 1)

theorem Presents.pos (h : Presents m n) : 0 < m := by
  obtain ⟨s, t, rfl⟩ := h
  exact Nat.mul_pos (Nat.two_pow_pos t) (Nat.succ_pos _)

theorem exists_represents (C : Crypto) (leaves : List HashValue) :
    ∃ acc, Represents C acc leaves := by
  have hcounts : Counts (pushAll (internalNodeHash C) [] leaves) (0 + leaves.length) :=
    Counts.nil.pushAll leaves
  have hholds := (Holds.nil : Holds (internalNodeHash C) accumulatorPlaceholderHash 0 [] []).pushAll
    leaves
  rw [zero_add] at hcounts
  obtain ⟨acc, hacc⟩ := exists_new hcounts
  exact ⟨acc, _, hcounts, hholds, hacc⟩

theorem exists_new_of_presents (C : Crypto) (hne : leaves ≠ []) (h : Presents m leaves.length) :
    ∃ roots acc, new C roots m = .ok acc ∧ acc.rootHash = merkleRoot C leaves := by
  obtain ⟨s, t, rfl⟩ := h
  -- Above the root there is nothing to take the nodes from, but the number is the same.
  have hlevel : (leaves.length - 1) / 2 ^ s =
      (leaves.length - 1) / 2 ^ min s (depth leaves.length) := by
    rcases le_total s (depth leaves.length) with hle | hle
    · rw [min_eq_left hle]
    · have hlength := le_two_pow_depth leaves.length
      have hpow : 2 ^ depth leaves.length ≤ 2 ^ s := Nat.pow_le_pow_right (by decide) hle
      have hpos := length_pos_iff.mpr hne
      rw [min_eq_right hle, div_eq_of_lt (by omega), div_eq_of_lt (by omega)]
  obtain ⟨nodes, hnodes, hroot⟩ := exists_root_eq (internalNodeHash C) accumulatorPlaceholderHash
    (min s (depth leaves.length)) hne (min_le_right _ _)
  obtain ⟨acc, hacc⟩ := exists_represents C nodes
  have hhash : acc.rootHash = merkleRoot C leaves := hacc.rootHash_eq.trans hroot
  obtain ⟨_, -, -, hnew⟩ := hacc
  rw [hnodes, ← hlevel] at hnew
  exact ⟨_, _, new_two_pow_mul t (succ_pos _) hnew, hhash⟩

theorem presents_of_new (hsep : Separated (internalNodeHash C) accumulatorPlaceholderHash leaves)
    (hne : leaves ≠ []) (hnew : new C roots m = .ok acc)
    (hroot : acc.rootHash = merkleRoot C leaves) : Presents m leaves.length := by
  obtain ⟨-, -, hlength⟩ := new_spec hnew
  obtain ⟨digits, hcounts, hdigits⟩ := exists_counts m roots.reverse
    ((length_reverse).trans hlength)
  rw [← reverse_reverse roots, ← hdigits] at hnew
  obtain ⟨_, hhash⟩ := computeRootHash_isOk hcounts
  rw [new_eq_ok hcounts hhash] at hnew
  obtain rfl := ok.inj hnew
  by_cases hnil : digits = []
  · subst hnil
    obtain rfl := ok.inj hhash
    exact absurd (hsep.subtree_eq_placeholder hroot.symm) hne
  obtain ⟨k, x, rest, rfl⟩ := hcounts.exists_lowest (hcounts.pos hnil)
  obtain ⟨v, rfl, hv⟩ := hcounts.of_replicate_append
  rw [reduceOption_replicate_append] at hhash
  by_cases hrest : rest.reduceOption = []
  · cases hv with
    | one hrest' =>
      obtain ⟨rfl, rfl⟩ := hrest'.eq_nil hrest
      have hle := le_two_pow_depth leaves.length
      have hpos := length_pos_iff.mpr hne
      exact ⟨depth leaves.length, k, by rw [div_eq_of_lt (by omega)]⟩
  · rw [computeRootHash_eq_foldBits hcounts hrest, foldBits_eq_foldDigits] at hhash
    have hfold := (ok.inj hhash).trans hroot
    obtain ⟨levels, -, hvalue⟩ := value_of_foldDigits_eq_subtree hsep hne (le_two_pow_depth _) hfold
    rw [hv.value_eq] at hvalue
    exact ⟨levels, k, by rw [hvalue]⟩

theorem computeRootHash_injective
    (hnode : ∀ {l r l' r'}, internalNodeHash C l r = internalNodeHash C l' r' → l = l' ∧ r = r')
    (hcounts : Counts digits n) (hlength : roots.length = digits.reduceOption.reverse.length)
    (hhash : computeRootHash C roots n = computeRootHash C digits.reduceOption.reverse n) :
    roots = digits.reduceOption.reverse := by
  rcases lt_or_ge roots.length 2 with hlt | htwo
  · rcases roots with _ | ⟨root, _ | ⟨root', roots⟩⟩
    · rw [length_nil, eq_comm, length_eq_zero_iff] at hlength
      rw [hlength]
    · obtain ⟨_, hroot'⟩ := length_eq_one_iff.mp hlength.symm
      rw [hroot'] at hhash ⊢
      exact congrArg (fun root => [root]) (ok.inj hhash)
    · rw [length_cons, length_cons] at hlt
      omega
  · have hnil : digits ≠ [] := by
      rintro rfl
      simp [hlength] at htwo
    obtain ⟨k, x, _, rfl⟩ := hcounts.exists_lowest (hcounts.pos hnil)
    obtain ⟨v, rfl, hv⟩ := hcounts.of_replicate_append
    rw [reduceOption_replicate_append] at hlength hhash ⊢
    -- The roots are laid out over the digits of the odd part.
    obtain ⟨_, hother, hroots⟩ := exists_counts v roots.reverse (by
      rw [hv.count_bits, length_reverse, hlength, length_reverse])
    rw [computeRootHash_of_two_le htwo, computeRootHash_of_two_le (hlength ▸ htwo),
      trailingZeros_eq hcounts, Nat.mul_div_cancel_left _ (Nat.two_pow_pos k), ← hroots,
      reverse_reverse] at hhash
    nth_rewrite 1 [hother.bits] at hhash
    rw [hv.bits, foldBits_eq_foldDigits, foldBits_eq_foldDigits] at hhash
    have hshape := hother.bits.symm.trans hv.bits
    obtain ⟨rfl, -⟩ := foldDigits_injective hnode hshape (ok.inj hhash)
    rw [hroots, reverse_reverse]

theorem represents_of_new (hsep : Separated (internalNodeHash C) accumulatorPlaceholderHash leaves)
    (hnew : new C roots leaves.length = .ok acc) (hroot : acc.rootHash = merkleRoot C leaves) :
    Represents C acc leaves := by
  obtain ⟨_, hacc₀⟩ := exists_represents C leaves
  have hroot₀ := hacc₀.rootHash_eq
  obtain ⟨digits, hcounts, hholds, hnew₀⟩ := hacc₀
  have hroots : roots = digits.reduceOption.reverse := by
    apply computeRootHash_injective hsep.node_injective hcounts
    · exact (new_spec hnew).2.2.trans (new_spec hnew₀).2.2.symm
    · simp only [new, bind_eq_ok, ensure_eq_ok, pure_eq_ok] at hnew hnew₀
      obtain ⟨-, -, hash, hhash, rfl⟩ := hnew
      obtain ⟨-, -, hash₀, hhash₀, rfl⟩ := hnew₀
      change hash = _ at hroot
      change hash₀ = _ at hroot₀
      rw [hhash, hhash₀, hroot, hroot₀]
  rw [hroots] at hnew
  exact ⟨digits, hcounts, hholds, hnew⟩

/-! ## What `append` makes of a number -/

theorem appendLoop_numLeaves {roots' n'} (hn : n < u64Bound)
    (h : appendLoop C more roots n = .ok (roots', n')) : n' = (n + more.length) % u64Bound := by
  induction more generalizing roots n with
  | nil =>
    obtain ⟨-, rfl⟩ := Prod.mk.inj (ok.inj h)
    exact (mod_eq_of_lt hn).symm
  | cons _ _ ih =>
    rw [appendLoop, bind_eq_ok] at h
    obtain ⟨_, -, hrest⟩ := h
    rw [ih (mod_lt _ (by decide)) hrest, mod_add_mod, length_cons]
    congr 1
    omega

theorem append_numLeaves (hn : acc.numLeaves < u64Bound) (h : acc.append C more = .ok acc') :
    acc'.numLeaves = (acc.numLeaves + more.length) % u64Bound := by
  rw [append, bind_eq_ok] at h
  obtain ⟨⟨_, n⟩, hloop, hnew⟩ := h
  rw [mapErr_eq_ok] at hnew
  rw [(new_spec hnew).2.1, appendLoop_numLeaves hn hloop]

/-- A call that fails, if at all, with a panic. -/
def OnlyPanics {α : Type} (x : Outcome α) : Prop := ∀ e, x ≠ .error (.error e)

theorem OnlyPanics.bind {α β : Type} {x : Outcome α} {f : α → Except _ β}
    (hx : OnlyPanics x) (hf : ∀ a, OnlyPanics (f a)) : OnlyPanics (x >>= f) := by
  intro e h
  cases x with
  | error => exact hx e (congrArg _ (error.inj h))
  | ok a => exact hf a e h

theorem mergeTrailing_onlyPanics (carries : Nat) (roots : List HashValue) :
    OnlyPanics (mergeTrailing C carries roots) := by
  fun_induction mergeTrailing C carries roots with
  | case1 | case3 => nofun
  | case2 _ _ _ _ ih => exact ih

theorem appendLoop_onlyPanics (more roots : List HashValue) (n : Nat) :
    OnlyPanics (appendLoop C more roots n) := by
  induction more generalizing roots n with
  | nil => nofun
  | cons _ _ ih => exact (mergeTrailing_onlyPanics _ _).bind fun roots => ih roots _

theorem append_onlyPanics (acc : InMemoryAccumulator) (more : List HashValue) :
    OnlyPanics (acc.append C more) := by
  refine (appendLoop_onlyPanics _ _ _).bind fun (roots, n) => ?_
  cases hnew : new C roots.reverse n <;> simp [OnlyPanics, hnew, mapErr]

theorem new_ne_panic (roots : List HashValue) (n : Nat) (message : String) :
    new C roots n ≠ .error (.panic message) := by
  by_cases hlength : roots.length = countOnes n
  · obtain ⟨_, hcounts, hdigits⟩ := exists_counts n roots.reverse
      ((length_reverse).trans hlength)
    obtain ⟨_, hacc⟩ := exists_new (C := C) hcounts
    rw [hdigits, reverse_reverse] at hacc
    simp [hacc]
  · simp [new, ensure, hlength, bind, Except.bind]

end InMemoryAccumulator

open InMemoryAccumulator

section

variable {C : Crypto} {rules : SafetyRules} {proposal : VoteProposal} {leaves : List HashValue}
  {proof : AccumulatorExtensionProof} {acc : InMemoryAccumulator}

/-- The outcome of the check is the version and the root of the accumulator of `leaves` with the
leaves of the proof appended, or an error. -/
def SignsTrueVersion (C : Crypto) (rules : SafetyRules) (leaves : List HashValue)
    (proposal : VoteProposal) : Prop :=
  (SafetyRules.extensionCheck C proposal).Ensures rules fun result _ =>
    (∀ message, result ≠ .error (.panic message)) ∧
    ∀ voteData, result = .ok voteData →
      voteData.proposed.version =
        leaves.length - 1 + proposal.accumulatorExtensionProof.leaves.length ∧
      voteData.proposed.executedStateId =
        merkleRoot C (leaves ++ proposal.accumulatorExtensionProof.leaves)

def VoteProposal.certifiedRoot (proposal : VoteProposal) : HashValue :=
  proposal.block.quorumCert.certifiedBlock.executedStateId

def VoteProposal.withRoots (proposal : VoteProposal) (roots : List HashValue) : VoteProposal :=
  { proposal with
    accumulatorExtensionProof := {
      frozenSubtreeRoots := roots
      numLeaves := proposal.accumulatorExtensionProof.numLeaves
      leaves := proposal.accumulatorExtensionProof.leaves } }

theorem extensionCheck_exec (C : Crypto) (rules) (proposal) :
    ((extensionCheck C proposal).exec rules).1 =
      (mapErr (Fault.map .invalidAccumulatorExtension)
        (proposal.accumulatorExtensionProof.verify C proposal.certifiedRoot)).map
          (proposal.voteDataWithExtensionProof C) := by
  rw [extensionCheck, Call.exec_bind, Call.exec_lift]
  unfold certifiedRoot
  cases mapErr (Fault.map Error.invalidAccumulatorExtension)
    (proposal.accumulatorExtensionProof.verify C
      proposal.block.quorumCert.certifiedBlock.executedStateId) <;> rfl

/-- What is signed of a proof over the root of `leaves`. -/
def TrueVersion (C : Crypto) (leaves : List HashValue) (proof : AccumulatorExtensionProof) : Prop :=
  (∀ message, proof.verify C (merkleRoot C leaves) ≠ .error (.panic message)) ∧
    ∀ acc, proof.verify C (merkleRoot C leaves) = .ok acc →
      acc.version = leaves.length - 1 + proof.leaves.length ∧
      acc.rootHash = merkleRoot C (leaves ++ proof.leaves)

theorem signsTrueVersion_iff (hcertified : proposal.certifiedRoot = merkleRoot C leaves) :
    SignsTrueVersion C rules leaves proposal ↔
      TrueVersion C leaves proposal.accumulatorExtensionProof := by
  unfold SignsTrueVersion TrueVersion Call.Ensures
  rw [extensionCheck_exec, hcertified]
  cases proposal.accumulatorExtensionProof.verify C (merkleRoot C leaves) with
  | error fault => cases fault <;> simp [mapErr, Fault.map, Except.map]
  | ok => simp [mapErr, Except.map, voteDataWithExtensionProof, Block.genBlockInfo]

theorem AccumulatorExtensionProof.verify_of_new {root}
    (hnew : new C proof.frozenSubtreeRoots proof.numLeaves = .ok acc)
    (hroot : acc.rootHash = root) : proof.verify C root = acc.append C proof.leaves := by
  simp [verify, hnew, bind, Except.bind, ensure_of _ hroot]

theorem AccumulatorExtensionProof.verify_of_ne {root}
    (hne : ∀ acc, new C proof.frozenSubtreeRoots proof.numLeaves = .ok acc → acc.rootHash ≠ root) :
    ∃ e, proof.verify C root = .error (.error e) := by
  rw [verify]
  cases hnew : new C proof.frozenSubtreeRoots proof.numLeaves with
  | error fault =>
    cases fault with
    | error e => exact ⟨e, rfl⟩
    | panic message => exact absurd hnew (new_ne_panic _ _ message)
  | ok acc =>
    simp only [bind, Except.bind, ensure, if_neg (hne acc hnew)]
    exact ⟨_, rfl⟩

theorem trueVersion_of_numLeaves
    (hsep : Separated (internalNodeHash C) accumulatorPlaceholderHash leaves) (hne : leaves ≠ [])
    (hbound : leaves.length + proof.leaves.length < u64Bound)
    (hnum : Presents proof.numLeaves leaves.length → proof.numLeaves = leaves.length) :
    TrueVersion C leaves proof := by
  unfold TrueVersion
  by_cases hpasses : ∃ acc, new C proof.frozenSubtreeRoots proof.numLeaves = .ok acc ∧
      acc.rootHash = merkleRoot C leaves
  · obtain ⟨acc, hnew, hroot⟩ := hpasses
    rw [verify_of_new hnew hroot]
    rw [hnum (presents_of_new hsep hne hnew hroot)] at hnew
    obtain ⟨_, happend, hrepresents⟩ := (represents_of_new hsep hnew hroot).append _ hbound
    rw [happend]
    refine ⟨by simp, fun _ hfound => ?_⟩
    obtain rfl := ok.inj hfound
    refine ⟨?_, hrepresents.rootHash_eq⟩
    have hpos := length_pos_iff.mpr hne
    rw [version, hrepresents.numLeaves_eq, length_append, if_neg (by omega)]
    omega
  · obtain ⟨e, herror⟩ := verify_of_ne fun acc hnew hroot => hpasses ⟨acc, hnew, hroot⟩
    rw [herror]
    exact ⟨by simp, by simp⟩

theorem TrueVersion.numLeaves_eq (h : TrueVersion C leaves proof) (hne : leaves ≠ [])
    (hcount : proof.numLeaves < u64Bound)
    (hbound : leaves.length + proof.leaves.length < u64Bound)
    (hnew : new C proof.frozenSubtreeRoots proof.numLeaves = .ok acc) (hpos : 0 < proof.numLeaves)
    (hroot : acc.rootHash = merkleRoot C leaves) : proof.numLeaves = leaves.length := by
  rw [TrueVersion, verify_of_new hnew hroot] at h
  have hnum : acc.numLeaves = proof.numLeaves := (new_spec hnew).2.1
  cases happend : acc.append C proof.leaves with
  | error fault =>
    cases fault with
    | error e => exact absurd happend (append_onlyPanics _ _ e)
    | panic message => exact absurd happend (h.1 message)
  | ok acc' =>
    have hversion := (h.2 acc' happend).1
    have hleaves := append_numLeaves (by rwa [hnum]) happend
    have hlength := length_pos_iff.mpr hne
    rw [version, hleaves] at hversion
    unfold u64Bound at *
    split at hversion <;> omega

end

/-- The version that is signed is the true one, whatever the frozen roots, if and only if the number
of leaves in the proof is that of the certified accumulator or cannot pass for it. -/
theorem extensionCheck_trueVersion_iff (C : Crypto) (hC : C.CollisionFree)
    (hplaceholder : ∀ value, C.hash value ≠ accumulatorPlaceholderHash) (rules : SafetyRules)
    (leaves : List HashValue) (hne : leaves ≠ [])
    (hleaves : ∀ x ∈ leaves, LeafHash C .transactionAccumulator x) (proposal : VoteProposal)
    (hcertified : proposal.certifiedRoot = merkleRoot C leaves)
    (hcount : proposal.accumulatorExtensionProof.numLeaves < u64Bound)
    (hbound : leaves.length + proposal.accumulatorExtensionProof.leaves.length < u64Bound) :
    (∀ roots, SignsTrueVersion C rules leaves (proposal.withRoots roots)) ↔
      (Presents proposal.accumulatorExtensionProof.numLeaves leaves.length →
        proposal.accumulatorExtensionProof.numLeaves = leaves.length) := by
  have hiff : ∀ roots, SignsTrueVersion C rules leaves (proposal.withRoots roots) ↔ _ :=
    fun _ => signsTrueVersion_iff hcertified
  constructor
  · intro h hpresents
    obtain ⟨roots, acc, hnew, hroot⟩ := exists_new_of_presents C hne hpresents
    have htrue := (hiff roots).mp (h roots)
    exact htrue.numLeaves_eq hne hcount hbound hnew hpresents.pos hroot
  · intro hnum roots
    have hsep := separated_of_leafHash hC hplaceholder hleaves
    exact (hiff roots).mpr (trueVersion_of_numLeaves hsep hne hbound hnum)

def proposalOver (root : HashValue) (roots : List HashValue) (numLeaves : Nat) : VoteProposal :=
  { (SafetyRules.soleProposal { BlockInfo.empty with executedStateId := root }).voteProposal with
    accumulatorExtensionProof := {
      frozenSubtreeRoots := roots, numLeaves := numLeaves, leaves := [] } }

theorem onlyInfo_leafHash : LeafHash .apart .transactionAccumulator (onlyInfo.hash .apart) :=
  leafHash_of_hash Crypto.apart_collisionFree Crypto.apart_hash_ne_placeholder (by simp)

theorem extensionCheck_trueVersion_iff_threeInfos :
    SignsTrueVersion .apart soleRules (replicate 3 (onlyInfo.hash .apart))
      (proposalOver (merkleRoot .apart (replicate 3 (onlyInfo.hash .apart)))
        [merkleRoot .apart (replicate 2 (onlyInfo.hash .apart)), onlyInfo.hash .apart] 3) := by
  have hiff := extensionCheck_trueVersion_iff .apart Crypto.apart_collisionFree
    Crypto.apart_hash_ne_placeholder soleRules (replicate 3 (onlyInfo.hash .apart)) (by simp)
    (fun _ hmem => eq_of_mem_replicate hmem ▸ onlyInfo_leafHash)
    (proposalOver (merkleRoot .apart (replicate 3 (onlyInfo.hash .apart))) [] 3) rfl
    (by simp [proposalOver, u64Bound]) (by simp [proposalOver, u64Bound])
  exact hiff.mpr (fun _ => rfl) _

/-- The root of two leaves passes for an accumulator of one leaf, and version `0` is signed. -/
theorem extensionCheck_wrong_version :
    Crypto.apart.CollisionFree ∧
    LeafHash .apart .transactionAccumulator (onlyInfo.hash .apart) ∧
    (let root := merkleRoot .apart [onlyInfo.hash .apart, onlyInfo.hash .apart]
    (proposalOver root [root] 1).certifiedRoot = root ∧
      ∃ voteData, ((extensionCheck .apart (proposalOver root [root] 1)).exec
          soleRules).1 = .ok voteData ∧
        voteData.proposed.version = 0 ∧ voteData.proposed.executedStateId = root) := by
  refine ⟨Crypto.apart_collisionFree, onlyInfo_leafHash, rfl, ?_⟩
  generalize merkleRoot .apart [onlyInfo.hash .apart, onlyInfo.hash .apart] = root
  have hnew : new .apart [root] 1 = .ok ⟨[root], 1, root⟩ := by
    simp [new, ensure, countOnes, computeRootHash, bind, Except.bind, pure, Except.pure]
  have hverify : (proposalOver root [root] 1).accumulatorExtensionProof.verify .apart root =
      .ok ⟨[root], 1, root⟩ := by
    simp [verify, append, appendLoop, proposalOver, hnew, ensure, bind, Except.bind, mapErr]
  refine ⟨(proposalOver root [root] 1).voteDataWithExtensionProof .apart ⟨[root], 1, root⟩, ?_, rfl,
    rfl⟩
  rw [extensionCheck_exec]
  change (mapErr _ ((proposalOver root [root] 1).accumulatorExtensionProof.verify .apart root)).map
    _ = _
  rw [hverify]
  rfl

end Loki.Diem
