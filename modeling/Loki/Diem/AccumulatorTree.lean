import Mathlib.Data.Nat.Bitwise
import Loki.Diem.Position
import Loki.Foundation.MerkleCounter

/-!
# The in-memory accumulator is a Merkle tree

The frozen roots, from the right, are the digits of a counter (`MerkleCounter`) and the number of
leaves is its value.  Every loop of the accumulator is compared with an operation on the digits:
`append_one` with `push`, the fold over the bits of the leaf count with the tree over all leaves,
and one step of `append_subtrees` with the `push` of a full subtree.
-/

namespace Loki.Diem

open Loki.Foundation MerkleTree MerkleCounter List FrozenSubtreeSiblingIterator Option Nat

namespace InMemoryAccumulator

variable (C : Crypto) {roots : List HashValue} {x : HashValue} {rest : Counter HashValue}

/-- `InMemoryAccumulator::default`. -/
def default : Outcome InMemoryAccumulator :=
  mapErr (fun _ => .panic "Constructing empty accumulator should work.") (new C [] 0)

def merkleRoot (leaves : List HashValue) : HashValue :=
  root (internalNodeHash C) accumulatorPlaceholderHash leaves

/-- The hash of the subtree at a position, in a tree with the leaves `leafAt`. -/
def subtreeHash (leafAt : Nat → HashValue) (p : Position) : HashValue :=
  subtree (internalNodeHash C) accumulatorPlaceholderHash p.level
    ((range' p.firstLeaf (2 ^ p.level)).map leafAt)

variable {C} {digits : Counter HashValue} {n : Nat} {acc acc' : InMemoryAccumulator}

/-! ## Appending leaves -/

theorem mergeTrailing_eq (digits : Counter HashValue) (x : HashValue) :
    mergeTrailing C ((digits.map isSome).takeWhile id).length
        (x :: digits.reduceOption) =
      .ok (push (internalNodeHash C) digits x).reduceOption := by
  induction digits generalizing x with
  | nil => simp [mergeTrailing, push]
  | cons digit _ ih =>
    cases digit with
    | none => simp [mergeTrailing, push]
    | some => simp [mergeTrailing, push, ih]

theorem appendLoop_eq (h : Counts digits n) {leaves} (hbound : n + leaves.length < u64Bound) :
    appendLoop C leaves digits.reduceOption n =
      .ok ((pushAll (internalNodeHash C) digits leaves).reduceOption, n + leaves.length) := by
  induction leaves generalizing digits n with
  | nil => rfl
  | cons leaf leaves ih =>
    have hpush : appendOne C digits.reduceOption n leaf =
        .ok (push (internalNodeHash C) digits leaf).reduceOption := by
      rw [appendOne, trailingOnes, h.bits, mergeTrailing_eq]
    rw [length_cons, add_comm leaves.length, ← add_assoc] at hbound ⊢
    rw [appendLoop, hpush]
    simp only [bind, Except.bind]
    rw [mod_eq_of_lt (by omega), ih (h.push leaf) hbound]
    rfl

theorem new_spec (h : new C roots n = .ok acc) :
    acc.frozenSubtreeRoots = roots ∧ acc.numLeaves = n ∧ roots.length = countOnes n := by
  simp only [new, bind_eq_ok, ensure_eq_ok, pure_eq_ok] at h
  obtain ⟨_, hlength, _, _, rfl⟩ := h
  exact ⟨rfl, rfl, hlength⟩

theorem append_eq (h : Counts digits n) {leaves}
    (hbound : n + leaves.length < u64Bound) (hacc : new C digits.reduceOption.reverse n = .ok acc)
    (hacc' : new C (pushAll (internalNodeHash C) digits leaves).reduceOption.reverse
      (n + leaves.length) = .ok acc') : acc.append C leaves = .ok acc' := by
  obtain ⟨hroots, hnum, -⟩ := new_spec hacc
  simp [append, hroots, hnum, reverse_reverse, appendLoop_eq h hbound, bind, Except.bind,
    hacc', mapErr]

/-! ## The root hash -/

theorem foldBits_eq_foldDigits (digits : Counter HashValue) (current : HashValue) :
    foldBits C (digits.map isSome) digits.reduceOption current =
      .ok (foldDigits (internalNodeHash C) accumulatorPlaceholderHash digits current) := by
  induction digits generalizing current with
  | nil => rfl
  | cons digit _ ih => cases digit <;> simp [foldBits, foldDigits, ih]

theorem foldBits_eq {height front back}
    (h : Holds (internalNodeHash C) accumulatorPlaceholderHash height digits front)
    (hback : back.length ≤ 2 ^ height) (hne : back = [] → ∀ rest, digits ≠ none :: rest) :
    foldBits C (digits.map isSome) digits.reduceOption
        (subtree (internalNodeHash C) accumulatorPlaceholderHash height back) =
      .ok (subtree (internalNodeHash C) accumulatorPlaceholderHash (height + digits.length)
        (front ++ back)) := by
  induction h generalizing back with
  | nil => rfl
  | @zero _ digits _ _ ih =>
    have hne' : back ≠ [] := fun hnil => hne hnil digits rfl
    rw [length_cons, add_comm digits.length, ← add_assoc, map_cons,
      reduceOption_cons_of_none, isSome_none, foldBits,
      ← subtree_succ_of_length_le (internalNodeHash C) accumulatorPlaceholderHash hne' hback]
    exact ih (by rw [pow_succ]; omega) fun hnil => absurd hnil hne'
  | @one height digits _ _ _ hblock ih =>
    rw [length_cons, add_comm digits.length, ← add_assoc, map_cons,
      reduceOption_cons_of_some, isSome_some, foldBits,
      ← subtree_succ_append (internalNodeHash C) accumulatorPlaceholderHash hblock, append_assoc]
    have hpow := Nat.two_pow_pos height
    apply ih
    · rw [length_append, pow_succ]
      omega
    · intro hnil
      rw [append_eq_nil_iff] at hnil
      rw [hnil.1, length_nil] at hblock
      omega

theorem trailingZeros_eq {k} (h : Counts (replicate k none ++ some x :: rest) n) :
    trailingZeros n = k := by
  have hpos := h.pos (by simp)
  rw [trailingZeros, if_neg hpos.ne', h.bits]
  induction k with
  | zero => simp
  | succ => simp [replicate_succ]

theorem computeRootHash_of_two_le (h : 2 ≤ roots.length) :
    computeRootHash C roots n = foldBits C (bits (n / 2 ^ trailingZeros n)) roots.reverse
      accumulatorPlaceholderHash := by
  rcases roots with _ | ⟨_, _ | ⟨_, _⟩⟩
  · simp at h
  · simp at h
  · rfl

theorem computeRootHash_eq_foldBits {k}
    (h : Counts (replicate k none ++ some x :: rest) n) (hrest : rest.reduceOption ≠ []) :
    computeRootHash C (some x :: rest).reduceOption.reverse n =
      foldBits C ((some x :: rest).map isSome) (some x :: rest).reduceOption
        accumulatorPlaceholderHash := by
  obtain ⟨v, rfl, hv⟩ := h.of_replicate_append
  have hlength : 2 ≤ (some x :: rest).reduceOption.reverse.length := by
    have := length_pos_iff.mpr hrest
    simp
    omega
  rw [computeRootHash_of_two_le hlength, trailingZeros_eq h,
    Nat.mul_div_cancel_left _ (Nat.two_pow_pos k), hv.bits, reverse_reverse]

theorem reduceOption_replicate_append (k : Nat) (digits : Counter HashValue) :
    (replicate k none ++ digits).reduceOption = digits.reduceOption := by
  simp [reduceOption_append, reduceOption_replicate_none]

theorem computeRootHash_isOk (hcounts : Counts digits n) :
    ∃ hash, computeRootHash C digits.reduceOption.reverse n = .ok hash := by
  by_cases hnil : digits = []
  · exact ⟨_, by rw [hnil]; rfl⟩
  obtain ⟨k, x, rest, rfl⟩ := hcounts.exists_lowest (hcounts.pos hnil)
  rw [reduceOption_replicate_append]
  by_cases hrest : rest.reduceOption = []
  · exact ⟨x, by simp [hrest, computeRootHash]⟩
  · exact ⟨_, (computeRootHash_eq_foldBits hcounts hrest).trans (foldBits_eq_foldDigits _ _)⟩

theorem depth_two_pow_mul {k v} (hv : Counts (some x :: rest) v)
    (hrest : rest.reduceOption ≠ []) : depth (2 ^ k * v) = k + rest.length + 1 := by
  have hlt := hv.lt_two_pow_length
  have hne : rest ≠ [] := fun hnil => hrest (by simp [hnil])
  cases hv with
  | one hcounts =>
    have hle := hcounts.two_pow_length_le.resolve_left hne
    apply depth_eq
    · rw [pow_add]
      exact Nat.mul_lt_mul_of_pos_left (by omega) (Nat.two_pow_pos k)
    · rw [add_assoc, pow_add]
      exact mul_le_mul_left _ hlt.le

theorem computeRootHash_eq {leaves} (hcounts : Counts digits n)
    (h : Holds (internalNodeHash C) accumulatorPlaceholderHash 0 digits leaves) :
    computeRootHash C digits.reduceOption.reverse n = .ok (merkleRoot C leaves) := by
  by_cases hnil : digits = []
  · subst hnil
    cases h
    rfl
  obtain ⟨k, x, rest, rfl⟩ := hcounts.exists_lowest (hcounts.pos hnil)
  have hlength : leaves.length = n := by simpa using h.length_eq hcounts
  have htop := h.of_replicate_append
  obtain ⟨v, rfl, hv⟩ := hcounts.of_replicate_append
  rw [reduceOption_replicate_append]
  rw [zero_add] at htop
  by_cases hrest : rest.reduceOption = []
  · -- A single full subtree is the whole tree.
    cases hv with
    | one hrest' =>
      obtain ⟨rfl, rfl⟩ := hrest'.eq_nil hrest
      cases htop with
      | one hfront hblock =>
        cases hfront
        simp [computeRootHash, merkleRoot, root, hblock]
  · have hfold := foldBits_eq htop (length_nil.trans_le (zero_le _)) (by simp)
    rw [subtree_nil, append_nil] at hfold
    rw [computeRootHash_eq_foldBits hcounts hrest, hfold, merkleRoot, root, hlength,
      length_cons, ← add_assoc, depth_two_pow_mul hv hrest]

theorem new_eq_ok {hash} (hcounts : Counts digits n)
    (hhash : computeRootHash C digits.reduceOption.reverse n = .ok hash) :
    new C digits.reduceOption.reverse n = .ok ⟨digits.reduceOption.reverse, n, hash⟩ := by
  have hones : digits.reduceOption.reverse.length = countOnes n := by
    rw [length_reverse, countOnes, hcounts.count_bits]
  simp only [new, ensure_of _ hones, hhash, bind, Except.bind, pure, Except.pure]

theorem exists_new (hcounts : Counts digits n) :
    ∃ acc, new C digits.reduceOption.reverse n = .ok acc := by
  obtain ⟨_, hhash⟩ := computeRootHash_isOk hcounts
  exact ⟨_, new_eq_ok hcounts hhash⟩

/-! ## Any sequence of appends -/

variable (C) in
def Represents (acc : InMemoryAccumulator) (leaves : List HashValue) : Prop :=
  ∃ digits : Counter HashValue, Counts digits leaves.length ∧
    Holds (internalNodeHash C) accumulatorPlaceholderHash 0 digits leaves ∧
    new C digits.reduceOption.reverse leaves.length = .ok acc

variable {leaves : List HashValue}

theorem default_represents : ∃ acc, default C = .ok acc ∧ Represents C acc [] :=
  ⟨_, rfl, [], .nil, .nil, rfl⟩

section

variable (h : Represents C acc leaves)

include h

theorem Represents.numLeaves_eq : acc.numLeaves = leaves.length := by
  obtain ⟨_, -, -, hnew⟩ := h
  exact (new_spec hnew).2.1

theorem Represents.rootHash_eq : acc.rootHash = merkleRoot C leaves := by
  obtain ⟨_, hcounts, hholds, hnew⟩ := h
  rw [new_eq_ok hcounts (computeRootHash_eq hcounts hholds)] at hnew
  cases hnew
  rfl

theorem Represents.append (more : List HashValue)
    (hbound : leaves.length + more.length < u64Bound) :
    ∃ acc', acc.append C more = .ok acc' ∧ Represents C acc' (leaves ++ more) := by
  obtain ⟨digits, hcounts, hholds, hnew⟩ := h
  have hcounts' : Counts (pushAll (internalNodeHash C) digits more) _ := hcounts.pushAll more
  obtain ⟨acc', hacc'⟩ := exists_new hcounts'
  rw [← length_append] at hcounts'
  refine ⟨acc', append_eq hcounts hbound hnew hacc', _, hcounts', hholds.pushAll more, ?_⟩
  rw [length_append]
  exact hacc'

theorem Represents.foldlM_append (chunks : List (List HashValue))
    (hbound : leaves.length + chunks.flatten.length < u64Bound) :
    ∃ acc', chunks.foldlM (fun acc leaves => acc.append C leaves) acc = .ok acc' ∧
      Represents C acc' (leaves ++ chunks.flatten) := by
  induction chunks generalizing acc leaves with
  | nil => exact ⟨acc, rfl, by simpa using h⟩
  | cons chunk _ ih =>
    rw [flatten_cons, length_append] at hbound
    obtain ⟨_, happend, h'⟩ := h.append chunk (by omega)
    obtain ⟨acc'', hrest, _⟩ := ih h' (by rw [length_append]; omega)
    refine ⟨acc'', ?_, by rwa [flatten_cons, ← append_assoc]⟩
    simp only [foldlM_cons, happend, bind, Except.bind]
    exact hrest

end

theorem foldlM_append_singletons (hcounts : Counts digits n) (hbound : n + leaves.length < u64Bound)
    (hacc : new C digits.reduceOption.reverse n = .ok acc) :
    leaves.foldlM (fun acc leaf => acc.append C [leaf]) acc =
      new C (pushAll (internalNodeHash C) digits leaves).reduceOption.reverse
        (n + leaves.length) := by
  induction leaves generalizing acc digits n with
  | nil => exact hacc.symm
  | cons leaf leaves ih =>
    rw [length_cons, add_comm leaves.length, ← add_assoc] at hbound ⊢
    have hcounts' : Counts (push (internalNodeHash C) digits leaf) _ := hcounts.push leaf
    obtain ⟨acc', hacc'⟩ := exists_new hcounts'
    have happend : acc.append C [leaf] = .ok acc' :=
      append_eq hcounts (show n + 1 < u64Bound by omega) hacc hacc'
    rw [foldlM_cons, happend]
    exact ih hcounts' hbound hacc'

/-! ## Appending subtrees -/

theorem carrySubtree_of_and_eq_zero {mask} (h : n &&& mask = 0) (roots : List HashValue)
    (current : HashValue) : carrySubtree C n roots mask current = .ok (roots, mask, current) := by
  cases roots <;> simp [carrySubtree, h]

theorem and_two_pow_eq_zero_iff (n j : Nat) : n &&& 2 ^ j = 0 ↔ n / 2 ^ j % 2 = 0 := by
  rw [and_two_pow, testBit_eq_decide_div_mod_eq]
  rcases mod_two_eq_zero_or_one (n / 2 ^ j) with h | h <;> simp [h]

theorem carrySubtree_eq {v j} (hcounts : Counts digits v) (hv : n / 2 ^ j = v)
    (hn : n < 2 ^ 63) (x : HashValue) :
    ∃ carries y rest,
      push (internalNodeHash C) digits x = replicate carries none ++ some y :: rest ∧
      carrySubtree C n digits.reduceOption (2 ^ j) x =
        .ok (rest.reduceOption, 2 ^ (j + carries), y) := by
  induction hcounts generalizing j x with
  | nil =>
    refine ⟨0, x, [], rfl, carrySubtree_of_and_eq_zero ?_ _ _⟩
    rw [and_two_pow_eq_zero_iff, hv]
  | @zero digits _ _ _ _ =>
    refine ⟨0, x, digits, rfl, carrySubtree_of_and_eq_zero ?_ _ _⟩
    rw [and_two_pow_eq_zero_iff, hv, mul_mod_right]
  | @one _ v left _ ih =>
    have hbit : ¬ n &&& 2 ^ j = 0 := by
      rw [and_two_pow_eq_zero_iff, hv]
      omega
    have hdiv : n / 2 ^ (j + 1) = v := by
      rw [Nat.pow_succ, ← Nat.div_div_eq_div_mul, hv]
      omega
    have hmask : 2 ^ j * 2 % u64Bound = 2 ^ (j + 1) := by
      have hle : 2 ^ j ≤ n := by
        by_contra hlt
        rw [div_eq_of_lt (by omega)] at hv
        omega
      rw [u64Bound]
      omega
    obtain ⟨carries, y, rest, hpush, hcarry⟩ := ih hdiv (internalNodeHash C left x)
    refine ⟨carries + 1, y, rest, ?_, ?_⟩
    · rw [push, hpush]
      rfl
    · rw [reduceOption_cons_of_some, carrySubtree, if_neg hbit, hmask, hcarry,
        add_right_comm]
      rfl

section

variable (C) (leafAt : Nat → HashValue) {level r : Nat}

/-- The leaves number `first` to `first + count - 1`. -/
def leavesFrom (first count : Nat) : List HashValue := (range' first count).map leafAt

def subtreeHashes (it : FrozenSubtreeSiblingIterator) : List HashValue :=
  it.toList.map (subtreeHash C leafAt)

variable {C leafAt} {it : FrozenSubtreeSiblingIterator}

@[simp] theorem length_leavesFrom (leafAt : Nat → HashValue) (first count : Nat) :
    (leavesFrom leafAt first count).length = count := by
  simp [leavesFrom]

theorem leavesFrom_split {first size count} (h : size ≤ count) :
    leavesFrom leafAt first count =
      leavesFrom leafAt first size ++ leavesFrom leafAt (first + size) (count - size) := by
  rw [leavesFrom, leavesFrom, leavesFrom, ← map_append, range'_append_1, Nat.add_sub_cancel' h]

theorem subtreeHashes_eq_cons {pos} (hpos : 0 < it.remainingNewLeaves)
    (hsize : it.nextSubtreeLeaves = 2 ^ level) (hcurrent : it.currentNumLeaves = 2 ^ level * pos)
    (hbound : it.currentNumLeaves + 2 ^ level ≤ 2 ^ 63) :
    subtreeHashes C leafAt it =
      subtree (internalNodeHash C) accumulatorPlaceholderHash level
          (leavesFrom leafAt it.currentNumLeaves (2 ^ level)) ::
        subtreeHashes C leafAt
          ⟨it.currentNumLeaves + 2 ^ level, it.remainingNewLeaves - 2 ^ level⟩ := by
  obtain ⟨p, hp, hlist⟩ := it.toList_eq_cons hpos hsize hcurrent hbound
  rw [subtreeHashes, hlist, map_cons, subtreeHash, hp.level_eq, hp.firstLeaf_eq, ← hcurrent]
  rfl

theorem pushAll_leavesFrom (digits : Counter HashValue) (h : 2 ^ level ≤ r) :
    pushAll (internalNodeHash C) (replicate level none ++ digits) (leavesFrom leafAt n r) =
      pushAll (internalNodeHash C)
        (replicate level none ++ push (internalNodeHash C) digits
          (subtree (internalNodeHash C) accumulatorPlaceholderHash level
            (leavesFrom leafAt n (2 ^ level))))
        (leavesFrom leafAt (n + 2 ^ level) (r - 2 ^ level)) := by
  have hpush := pushAll_replicate_append (internalNodeHash C) accumulatorPlaceholderHash digits
    (length_leavesFrom leafAt n (2 ^ level))
  rw [leavesFrom_split h]
  rw [pushAll] at hpush ⊢
  rw [foldl_append, hpush]
  rfl

variable (C leafAt) in
theorem counts_push_leavesFrom (h : Counts (replicate level none ++ digits) n) :
    Counts (replicate level none ++ push (internalNodeHash C) digits
      (subtree (internalNodeHash C) accumulatorPlaceholderHash level
        (leavesFrom leafAt n (2 ^ level)))) (n + 2 ^ level) := by
  have hlength := length_leavesFrom leafAt n (2 ^ level)
  rw [← pushAll_replicate_append (internalNodeHash C) accumulatorPlaceholderHash digits hlength]
  have hcounts : Counts (pushAll (internalNodeHash C) (replicate level none ++ digits)
      (leavesFrom leafAt n (2 ^ level))) _ := h.pushAll _
  rwa [hlength] at hcounts

variable (C leafAt)

theorem subtreeHashes_reverse_append (hcounts : Counts digits n) (hn : 0 < n)
    (hr : r < 2 ^ trailingZeros n) (hbound : n + r ≤ 2 ^ 63) :
    (subtreeHashes C leafAt ⟨n, r⟩).reverse ++ digits.reduceOption =
      (pushAll (internalNodeHash C) digits (leavesFrom leafAt n r)).reduceOption := by
  induction r using Nat.strongRecOn generalizing digits n with
  | ind r ih =>
    rcases r.eq_zero_or_pos with rfl | hpos
    · rfl
    obtain ⟨level, hbatch, hle, hlt⟩ := exists_nextNewLeafBatch
      ⟨n, r⟩ hpos (show r < 2 ^ 64 by omega)
    replace hle : 2 ^ level ≤ r := hle
    replace hlt : r < 2 ^ (level + 1) := hlt
    have hsize : nextSubtreeLeaves ⟨n, r⟩ = 2 ^ level := by
      rw [nextSubtreeLeaves_of_lt hr, hbatch]
    obtain ⟨k, x, rest, rfl⟩ := hcounts.exists_lowest hn
    obtain ⟨v, hv, -⟩ := hcounts.of_replicate_append
    rw [trailingZeros_eq hcounts] at hr
    obtain ⟨d, rfl⟩ : ∃ d, k = level + (d + 1) := by
      have := (Nat.pow_lt_pow_iff_right (by decide)).mp (hle.trans_lt hr)
      exact ⟨k - level - 1, by omega⟩
    rw [pow_add, mul_assoc] at hv
    -- The first subtree is pushed below the lowest root, where the digits are free.
    have hdigits : replicate (level + (d + 1)) none ++ some x :: rest =
        replicate level none ++ none :: (replicate d none ++ some x :: rest) := by
      rw [replicate_add, append_assoc]
      rfl
    rw [hdigits] at hcounts ⊢
    have hcounts' := counts_push_leavesFrom C leafAt hcounts
    have hrest : r - 2 ^ level < 2 ^ trailingZeros (n + 2 ^ level) := by
      rw [trailingZeros_eq hcounts']
      omega
    rw [pushAll_leavesFrom _ hle,
      subtreeHashes_eq_cons hpos hsize hv (show n + 2 ^ level ≤ 2 ^ 63 by omega)]
    have hih := ih (r - 2 ^ level) (by omega) hcounts' (by omega) hrest (by omega)
    rw [push] at hih ⊢
    rw [← hih]
    simp [reduceOption_replicate_append]

theorem appendSubtreesLoop_of_lt {remaining rightmost subtrees roots}
    (h : remaining < rightmost) : appendSubtreesLoop C subtrees roots n remaining rightmost =
      .ok (roots, (n + remaining) % u64Bound, subtrees) := by
  cases subtrees <;> simp [appendSubtreesLoop, h]

theorem appendSubtreesLoop_eq (hcounts : Counts digits n) (hn : 0 < n) (hbound : n + r ≤ 2 ^ 63) :
    ∃ roots rest, appendSubtreesLoop C (subtreeHashes C leafAt ⟨n, r⟩) digits.reduceOption n r
        (2 ^ trailingZeros n) = .ok (roots, n + r, rest) ∧
      rest.reverse ++ roots =
        (pushAll (internalNodeHash C) digits (leavesFrom leafAt n r)).reduceOption := by
  have hu64 : u64Bound = 2 ^ 64 := rfl
  induction r using Nat.strongRecOn generalizing digits n with
  | ind r ih =>
    by_cases hr : r < 2 ^ trailingZeros n
    · refine ⟨_, _, ?_, subtreeHashes_reverse_append C leafAt hcounts hn hr hbound⟩
      rw [appendSubtreesLoop_of_lt C hr, mod_eq_of_lt (by omega)]
    rw [not_lt] at hr
    have hsize : nextSubtreeLeaves ⟨n, r⟩ = 2 ^ trailingZeros n :=
      nextSubtreeLeaves_of_le hn hr
    obtain ⟨k, x, _, rfl⟩ := hcounts.exists_lowest hn
    obtain ⟨v, hv, hcountsv⟩ := hcounts.of_replicate_append
    simp only [trailingZeros_eq hcounts] at hr hsize ⊢
    have hpow := Nat.two_pow_pos k
    have hcounts' := counts_push_leavesFrom C leafAt hcounts
    obtain ⟨_, y, _, hpush, hcarry⟩ := carrySubtree_eq (n := n)
      hcountsv (by rw [hv, Nat.mul_div_cancel_left _ hpow]) (by omega)
      (subtree (internalNodeHash C) accumulatorPlaceholderHash k (leavesFrom leafAt n (2 ^ k)))
    rw [hpush, ← append_assoc, replicate_append_replicate] at hcounts'
    obtain ⟨roots, left, hloop, hroots⟩ := ih (r - 2 ^ k) (by omega) hcounts' (by omega) (by omega)
    refine ⟨roots, left, ?_, ?_⟩
    · rw [trailingZeros_eq hcounts', reduceOption_replicate_append] at hloop
      rw [subtreeHashes_eq_cons (by simp only; omega) hsize hv (show n + 2 ^ k ≤ 2 ^ 63 by omega),
        appendSubtreesLoop, if_neg (by omega), reduceOption_replicate_append, hcarry]
      rw [mod_eq_of_lt (by omega), show n + r = n + 2 ^ k + (r - 2 ^ k) by omega, ← hloop]
      rfl
    · rw [pushAll_leavesFrom _ hr, hpush, ← append_assoc, replicate_append_replicate]
      exact hroots

theorem subtreeHashes_reverse_of_zero (hbound : r ≤ 2 ^ 63) :
    (subtreeHashes C leafAt ⟨0, r⟩).reverse =
      (pushAll (internalNodeHash C) [] (leavesFrom leafAt 0 r)).reduceOption := by
  rcases r.eq_zero_or_pos with rfl | hpos
  · rfl
  obtain ⟨level, hbatch, hle, hlt⟩ := exists_nextNewLeafBatch ⟨0, r⟩ hpos (show r < 2 ^ 64 by omega)
  replace hle : 2 ^ level ≤ r := hle
  replace hlt : r < 2 ^ (level + 1) := hlt
  have hsize : nextSubtreeLeaves ⟨0, r⟩ = 2 ^ level :=
    (nextSubtreeLeaves_of_lt (show r < 2 ^ 64 by omega)).trans hbatch
  have hfirst := pushAll_nil (internalNodeHash C) accumulatorPlaceholderHash
    (length_leavesFrom leafAt 0 (2 ^ level))
  have hcounts : Counts (pushAll (internalNodeHash C) [] (leavesFrom leafAt 0 (2 ^ level)))
      (0 + (leavesFrom leafAt 0 (2 ^ level)).length) := Counts.nil.pushAll _
  rw [length_leavesFrom, hfirst] at hcounts
  have hrest : r - 2 ^ level < 2 ^ trailingZeros (0 + 2 ^ level) := by
    rw [trailingZeros_eq hcounts]
    omega
  have hfill := subtreeHashes_reverse_append C leafAt hcounts (by omega) hrest (by omega)
  rw [subtreeHashes_eq_cons hpos hsize (mul_zero _).symm (show 0 + 2 ^ level ≤ 2 ^ 63 by omega),
    leavesFrom_split hle]
  rw [pushAll] at hfirst hfill ⊢
  rw [foldl_append, hfirst, ← hfill, reduceOption_replicate_append]
  simp

theorem appendSubtrees_eq {m} (hcounts : Counts digits m) (hbound : m + r ≤ 2 ^ 63)
    (hacc : new C digits.reduceOption.reverse m = .ok acc) :
    acc.appendSubtrees C (subtreeHashes C leafAt ⟨m, r⟩) r =
      new C (pushAll (internalNodeHash C) digits (leavesFrom leafAt m r)).reduceOption.reverse
        (m + r) := by
  obtain ⟨hroots, hnum, -⟩ := new_spec hacc
  have hroom : r ≤ (maxAccumulatorLeaves + u64Bound - acc.numLeaves) % u64Bound := by
    rw [hnum, maxAccumulatorLeaves, u64Bound]
    omega
  rw [appendSubtrees, ensure_of _ hroom, hroots, hnum]
  rcases m.eq_zero_or_pos with rfl | hm
  · have hnil : digits = [] := by
      by_contra hne
      exact absurd (hcounts.pos hne) (lt_irrefl 0)
    subst hnil
    rw [← subtreeHashes_reverse_of_zero C leafAt (by omega), zero_add]
    simp only [bind, Except.bind, if_true, reverse_reverse]
  · obtain ⟨_, _, hloop, heq⟩ := appendSubtreesLoop_eq C leafAt hcounts hm
      hbound
    simp only [bind, Except.bind, if_neg hm.ne', reverse_reverse, hloop]
    rw [← heq, reverse_append, reverse_reverse]

end

/-- However a list of leaves is split into calls of `append`, the accumulator counts the leaves and
its root hash is the root of the naive tree.  Appending the subtrees that
`FrozenSubtreeSiblingIterator` lists is the same as appending their leaves one by one. -/
theorem append_eq_merkleTree (C : Crypto) :
    (∀ chunks : List (List HashValue), chunks.flatten.length ≤ 2 ^ 62 →
      ∃ empty acc, default C = .ok empty ∧
        chunks.foldlM (fun acc leaves => acc.append C leaves) empty = .ok acc ∧
        acc.numLeaves = chunks.flatten.length ∧
        acc.rootHash = merkleRoot C chunks.flatten) ∧
    (∀ (roots : List HashValue) (m n : Nat) (acc : InMemoryAccumulator)
      (it : FrozenSubtreeSiblingIterator) (leafAt : Nat → HashValue),
      new C roots m = .ok acc → FrozenSubtreeSiblingIterator.new m n = .ok it →
      ∃ acc', acc.appendSubtrees C (it.toList.map (subtreeHash C leafAt)) (n - m) = .ok acc' ∧
        (leavesFrom leafAt m (n - m)).foldlM (fun acc leaf => acc.append C [leaf]) acc =
          .ok acc') := by
  constructor
  · intro chunks _
    obtain ⟨empty, hempty, hrep⟩ := default_represents
    obtain ⟨acc, hfold, hacc⟩ := hrep.foldlM_append chunks (by rw [length_nil, u64Bound]; omega)
    exact ⟨empty, acc, hempty, hfold, hacc.numLeaves_eq, hacc.rootHash_eq⟩
  · intro roots m n _ _ leafAt hacc hit
    simp only [FrozenSubtreeSiblingIterator.new, bind_eq_ok, ensure_eq_ok, pure_eq_ok] at hit
    obtain ⟨_, hmax, _, _, rfl⟩ := hit
    rw [maxAccumulatorLeaves] at hmax
    obtain ⟨digits, hcounts, hdigits⟩ := exists_counts m roots.reverse
      (by rw [length_reverse]; exact (new_spec hacc).2.2)
    rw [← reverse_reverse roots, ← hdigits] at hacc
    have hcounts' : Counts (pushAll (internalNodeHash C) digits (leavesFrom leafAt m (n - m)))
        (m + (leavesFrom leafAt m (n - m)).length) := hcounts.pushAll _
    obtain ⟨acc', hacc'⟩ := exists_new hcounts'
    refine ⟨acc', ?_, ?_⟩
    · rw [length_leavesFrom] at hacc'
      rw [← hacc']
      exact appendSubtrees_eq C leafAt hcounts (by omega) hacc
    · rw [foldlM_append_singletons hcounts _ hacc, hacc']
      rw [length_leavesFrom, u64Bound]
      omega

theorem append_eq_merkleTree_three :
    (∃ empty acc, default .concrete = .ok empty ∧
      [[1], [2, 3]].foldlM (fun acc leaves => acc.append .concrete leaves) empty = .ok acc ∧
      acc.numLeaves = 3 ∧ acc.rootHash = merkleRoot .concrete [1, 2, 3]) ∧
    ∃ acc', appendSubtrees .concrete ⟨[1], 1, 1⟩
        ((toList ⟨1, 2⟩).map (subtreeHash .concrete id)) 2 = .ok acc' ∧
      [1, 2].foldlM (fun acc leaf => append .concrete acc [leaf]) ⟨[1], 1, 1⟩ = .ok acc' := by
  constructor
  · exact (append_eq_merkleTree .concrete).1 [[1], [2, 3]] (by decide)
  · exact (append_eq_merkleTree .concrete).2 [1] 1 3 ⟨[1], 1, 1⟩ ⟨1, 2⟩ id rfl rfl

end InMemoryAccumulator

end Loki.Diem
