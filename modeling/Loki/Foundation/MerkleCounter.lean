import Mathlib.Data.List.ReduceOption
import Mathlib.Data.Nat.Bits
import Loki.Foundation.MerkleTree

/-!
# Frozen subtrees as a binary counter

A growing Merkle tree is kept as the roots of its full subtrees.  There is one of them for every
bit that is set in the number of leaves, so that they are the digits of a binary counter, lowest
digit first, and a new leaf is an increment whose carry merges two subtrees of the same size.
-/

namespace Loki.Foundation.MerkleCounter

open MerkleTree List Nat Option

abbrev Counter (α : Type) := List (Option α)

variable {α : Type} (node : α → α → α) (placeholder : α)

def push : Counter α → α → Counter α
  | [], x => [some x]
  | none :: digits, x => some x :: digits
  | some left :: digits, x => none :: push digits (node left x)

def pushAll (digits : Counter α) (xs : List α) : Counter α := xs.foldl (push node) digits

/-- The digits are the binary representation of a number, without leading zeros. -/
inductive Counts : Counter α → Nat → Prop
  | nil : Counts [] 0
  | zero {digits n} : Counts digits n → 0 < n → Counts (none :: digits) (2 * n)
  | one {digits n x} : Counts digits n → Counts (some x :: digits) (2 * n + 1)

variable {node placeholder} {digits : Counter α} {n : Nat}

section

variable (h : Counts digits n)

include h

theorem Counts.bits : bits n = digits.map isSome := by
  induction h with
  | nil => simp
  | zero _ hpos ih => simp [bit0_bits _ hpos.ne', ih]
  | one _ ih => simp [bit1_bits, ih]

theorem Counts.count_bits : (Nat.bits n).count true = digits.reduceOption.length := by
  rw [h.bits]
  clear h
  induction digits with
  | nil => rfl
  | cons digit _ ih => cases digit <;> simp [ih]

theorem Counts.push (x : α) : Counts (push node digits x) (n + 1) := by
  induction h generalizing x with
  | nil => exact .one .nil
  | zero hdigits => exact .one hdigits
  | one _ ih => exact .zero (ih _) (succ_pos _)

theorem Counts.pushAll (xs : List α) : Counts (pushAll node digits xs) (n + xs.length) := by
  induction xs generalizing digits n with
  | nil => exact h
  | cons x xs ih =>
    rw [length_cons, add_comm xs.length, ← add_assoc]
    exact ih (h.push x)

theorem Counts.pos (hne : digits ≠ []) : 0 < n := by
  cases h with
  | nil => exact absurd rfl hne
  | zero | one => omega

theorem Counts.eq_nil (hroots : digits.reduceOption = []) : digits = [] ∧ n = 0 := by
  induction h with
  | nil => exact ⟨rfl, rfl⟩
  | zero _ _ ih =>
    have := (ih (by simpa using hroots)).2
    omega
  | one => simp at hroots

end

theorem Counts.of_replicate_append {k} (h : Counts (replicate k none ++ digits) n) :
    ∃ v, n = 2 ^ k * v ∧ Counts digits v := by
  induction k generalizing n with
  | zero => exact ⟨n, by simp, h⟩
  | succ _ ih =>
    cases h with
    | zero hdigits =>
      obtain ⟨v, rfl, hv⟩ := ih hdigits
      exact ⟨v, by rw [pow_succ', mul_assoc], hv⟩

theorem Counts.exists_lowest (h : Counts digits n) (hpos : 0 < n) :
    ∃ k x rest, digits = replicate k none ++ some x :: rest := by
  induction h with
  | nil => omega
  | zero _ hn ih =>
    obtain ⟨k, x, rest, rfl⟩ := ih hn
    exact ⟨k + 1, x, rest, rfl⟩
  | one _ _ => exact ⟨0, _, _, rfl⟩

theorem Counts.lt_two_pow_length (h : Counts digits n) : n < 2 ^ digits.length := by
  induction h with
  | nil => exact one_pos
  | zero _ _ ih | one _ ih =>
    rw [length_cons, pow_succ]
    omega

theorem Counts.two_pow_length_le (h : Counts digits n) :
    digits = [] ∨ 2 ^ digits.length ≤ 2 * n := by
  induction h with
  | nil => exact .inl rfl
  | zero _ _ ih | one _ ih =>
    right
    rw [length_cons, pow_succ]
    rcases ih with rfl | _
    · rw [length_nil, pow_zero]
      omega
    · omega

theorem exists_counts (n : Nat) (roots : List α) (hroots : roots.length = (bits n).count true) :
    ∃ digits, Counts digits n ∧ digits.reduceOption = roots := by
  induction n using Nat.strongRecOn generalizing roots with
  | ind n ih =>
    obtain ⟨k, rfl | rfl⟩ := n.even_or_odd'
    · rcases k.eq_zero_or_pos with rfl | hk
      · simp at hroots
        exact ⟨[], .nil, by simp [hroots]⟩
      · rw [bit0_bits k hk.ne'] at hroots
        obtain ⟨digits, hdigits, rfl⟩ := ih k (by omega) _ (by simpa using hroots)
        exact ⟨none :: digits, .zero hdigits hk, by simp⟩
    · rw [bit1_bits] at hroots
      cases roots with
      | nil => simp at hroots
      | cons root =>
        obtain ⟨digits, hdigits, rfl⟩ := ih k (by omega) _ (by simpa using hroots)
        exact ⟨some root :: digits, .one hdigits, by simp⟩

/-! ## Pushing a full subtree at once -/

variable (node placeholder)

theorem pushAll_replicate_append (digits : Counter α) {height xs} (hxs : xs.length = 2 ^ height) :
    pushAll node (replicate height none ++ digits) xs =
      replicate height none ++ push node digits (subtree node placeholder height xs) := by
  induction height generalizing digits xs with
  | zero =>
    obtain ⟨x, rfl⟩ := length_eq_one_iff.mp hxs
    rfl
  | succ height ih =>
    have hfront : (xs.take (2 ^ height)).length = 2 ^ height := by simp; omega
    have hback : (xs.drop (2 ^ height)).length = 2 ^ height := by simp; omega
    rw [← take_append_drop (2 ^ height) xs, subtree_succ_append _ _ hfront]
    simp only [pushAll, foldl_append] at ih ⊢
    rw [replicate_succ', append_assoc, ih _ hfront]
    rw [ih _ hback]
    simp [push]

theorem pushAll_nil {height xs} (hxs : xs.length = 2 ^ height) :
    pushAll node [] xs = replicate height none ++ [some (subtree node placeholder height xs)] := by
  induction height generalizing xs with
  | zero =>
    obtain ⟨x, rfl⟩ := length_eq_one_iff.mp hxs
    rfl
  | succ height ih =>
    have hfront : (xs.take (2 ^ height)).length = 2 ^ height := by simp; omega
    have hback : (xs.drop (2 ^ height)).length = 2 ^ height := by simp; omega
    have hpush := fun digits => pushAll_replicate_append node placeholder digits hback
    rw [← take_append_drop (2 ^ height) xs, subtree_succ_append _ _ hfront]
    simp only [pushAll, foldl_append] at ih hpush ⊢
    rw [ih hfront, hpush, replicate_succ', append_assoc]
    rfl

/-! ## What the digits stand for -/

/-- The digits from `height` up hold the roots of the full subtrees of `leaves`, the largest
subtree first. -/
inductive Holds : Nat → Counter α → List α → Prop
  | nil {height} : Holds height [] []
  | zero {height digits leaves} : Holds (height + 1) digits leaves →
      Holds height (none :: digits) leaves
  | one {height digits front block} : Holds (height + 1) digits front →
      block.length = 2 ^ height →
      Holds height (some (subtree node placeholder height block) :: digits) (front ++ block)

variable {node placeholder} {height : Nat} {leaves : List α}

theorem Holds.push (h : Holds node placeholder height digits leaves) {block}
    (hblock : block.length = 2 ^ height) :
    Holds node placeholder height (push node digits (subtree node placeholder height block))
      (leaves ++ block) := by
  induction h generalizing block with
  | nil => exact .one .nil hblock
  | zero hdigits => exact .one hdigits hblock
  | @one _ _ _ _ _ hblock' ih =>
    rw [append_assoc]
    simp only [MerkleCounter.push]
    rw [← subtree_succ_append node placeholder hblock']
    exact .zero (ih (by rw [length_append, hblock, hblock', pow_succ]; omega))

theorem Holds.pushAll (h : Holds node placeholder 0 digits leaves) (xs : List α) :
    Holds node placeholder 0 (pushAll node digits xs) (leaves ++ xs) := by
  induction xs generalizing digits leaves with
  | nil =>
    rw [append_nil]
    exact h
  | cons x xs ih =>
    rw [show leaves ++ x :: xs = leaves ++ [x] ++ xs by simp]
    have hx := h.push (length_singleton (a := x))
    exact ih hx

theorem Holds.of_replicate_append {k}
    (h : Holds node placeholder height (replicate k none ++ digits) leaves) :
    Holds node placeholder (height + k) digits leaves := by
  induction k generalizing height with
  | zero => exact h
  | succ _ ih =>
    cases h with
    | zero hdigits =>
      rw [← add_assoc, add_right_comm]
      exact ih hdigits

theorem Holds.length_eq (h : Holds node placeholder height digits leaves)
    (hcounts : Counts digits n) : leaves.length = 2 ^ height * n := by
  induction h generalizing n with
  | nil =>
    cases hcounts
    rfl
  | zero _ ih =>
    cases hcounts with
    | zero hdigits => rw [ih hdigits, pow_succ, mul_assoc]
  | one _ hblock ih =>
    cases hcounts with
    | one hdigits =>
      rw [length_append, ih hdigits, hblock, pow_succ, mul_assoc]
      rfl

/-! ## The hash over the digits -/

section

variable (node placeholder)

/-- The hash over the digits from the lowest one up: a root on the left of what is below it, or
padding on the right. -/
def foldDigits : Counter α → α → α
  | [], current => current
  | some x :: digits, current => foldDigits digits (node x current)
  | none :: digits, current => foldDigits digits (node current placeholder)

end

def value : Counter α → Nat
  | [] => 0
  | some _ :: digits => 2 * value digits + 1
  | none :: digits => 2 * value digits

theorem Counts.value_eq (h : Counts digits n) : value digits = n := by
  induction h with
  | nil => rfl
  | zero _ _ ih | one _ ih => rw [value, ih]

variable (digits)

theorem value_append_some (x : α) :
    value (digits ++ [some x]) = value digits + 2 ^ digits.length := by
  induction digits with
  | nil => rfl
  | cons digit _ ih =>
    cases digit <;> simp only [cons_append, value, ih, length_cons, pow_succ] <;>
      omega

theorem value_append_none : value (digits ++ [none]) = value digits := by
  induction digits with
  | nil => rfl
  | cons digit _ ih => cases digit <;> simp [value, ih]

theorem foldDigits_append_some (x current : α) :
    foldDigits node placeholder (digits ++ [some x]) current =
      node x (foldDigits node placeholder digits current) := by
  induction digits generalizing current with
  | nil => rfl
  | cons digit _ ih => cases digit <;> simp [foldDigits, ih]

theorem foldDigits_append_none (current : α) :
    foldDigits node placeholder (digits ++ [none]) current =
      node (foldDigits node placeholder digits current) placeholder := by
  induction digits generalizing current with
  | nil => rfl
  | cons digit _ ih => cases digit <;> simp [foldDigits, ih]

variable {digits}

theorem foldDigits_injective (hnode : ∀ {l r l' r'}, node l r = node l' r' → l = l' ∧ r = r')
    {digits' current current'} (hshape : digits.map isSome = digits'.map isSome)
    (h : foldDigits node placeholder digits current =
      foldDigits node placeholder digits' current') : digits = digits' ∧ current = current' := by
  induction digits generalizing digits' current current' with
  | nil =>
    rw [map_nil, eq_comm, map_eq_nil_iff] at hshape
    subst hshape
    exact ⟨rfl, h⟩
  | cons digit _ ih =>
    rcases digits' with _ | ⟨digit', _⟩
    · simp at hshape
    rw [map_cons, map_cons, cons.injEq] at hshape
    cases digit with
    | none =>
      obtain rfl : digit' = none := by simpa using hshape.1.symm
      obtain ⟨rfl, hcurrent⟩ := ih hshape.2 h
      exact ⟨rfl, (hnode hcurrent).1⟩
    | some =>
      obtain ⟨_, rfl⟩ := isSome_iff_exists.mp hshape.1.symm
      obtain ⟨rfl, hnext⟩ := ih hshape.2 h
      obtain ⟨rfl, hcurrent⟩ := hnode hnext
      exact ⟨rfl, hcurrent⟩

theorem foldDigits_eq_node (x : α) (rest : Counter α) (current : α) :
    ∃ l r, foldDigits node placeholder (some x :: rest) current = node l r := by
  induction rest using reverseRecOn with
  | nil => exact ⟨x, current, rfl⟩
  | append_singleton _ digit =>
    cases digit with
    | none => exact ⟨_, _, foldDigits_append_none _ _⟩
    | some => exact ⟨_, _, foldDigits_append_some _ _ _⟩

theorem value_of_foldDigits_eq_subtree {x rest leaves}
    (hsep : Separated node placeholder leaves) (hne : leaves ≠ [])
    (hlength : leaves.length ≤ 2 ^ height)
    (h : foldDigits node placeholder (some x :: rest) placeholder =
      subtree node placeholder height leaves) :
    ∃ levels, height = levels + (rest.length + 1) ∧
      value (some x :: rest) = (leaves.length - 1) / 2 ^ levels + 1 := by
  induction rest using reverseRecOn generalizing height leaves with
  | nil =>
    obtain ⟨lower, rfl, -, hright⟩ := hsep.subtree_eq_node hne h
    have hdrop := (hsep.of_subset (drop_subset _ _)).subtree_eq_placeholder hright.symm
    have hpos := length_pos_iff.mpr hne
    rw [drop_eq_nil_iff] at hdrop
    refine ⟨lower, rfl, ?_⟩
    rw [div_eq_of_lt (by omega)]
    rfl
  | append_singleton rest digit ih =>
    rw [← cons_append] at h ⊢
    cases digit with
    | none =>
      rw [foldDigits_append_none] at h
      obtain ⟨lower, rfl, hleft, hright⟩ := hsep.subtree_eq_node hne h
      have hdrop := (hsep.of_subset (drop_subset _ _)).subtree_eq_placeholder hright.symm
      rw [drop_eq_nil_iff] at hdrop
      rw [take_of_length_le hdrop] at hleft
      obtain ⟨levels, rfl, hvalue⟩ := ih hsep hne hdrop hleft
      refine ⟨levels, ?_, ?_⟩
      · rw [length_append, length_singleton]
        omega
      · rw [value_append_none, hvalue]
    | some =>
      rw [foldDigits_append_some] at h
      obtain ⟨lower, rfl, -, hright⟩ := hsep.subtree_eq_node hne h
      have hsep' := hsep.of_subset (drop_subset (2 ^ lower) leaves)
      have hne' : leaves.drop (2 ^ lower) ≠ [] := by
        intro hnil
        obtain ⟨l, r, hnode⟩ : ∃ l r,
            foldDigits node placeholder (some x :: rest) placeholder = node l r :=
          foldDigits_eq_node x rest placeholder
        rw [hnil, subtree_nil, hnode] at hright
        exact hsep.placeholder_ne_node l r hright.symm
      obtain ⟨levels, rfl, hvalue⟩ := ih hsep' hne' (by rw [length_drop]; omega) hright
      have hlt : 2 ^ (levels + (rest.length + 1)) < leaves.length := by
        rwa [ne_eq, drop_eq_nil_iff, not_le] at hne'
      refine ⟨levels, ?_, ?_⟩
      · rw [length_append, length_singleton]
        omega
      · rw [value_append_some, hvalue, length_drop, length_cons]
        have hsplit : leaves.length - 1 = leaves.length - 2 ^ (levels + (rest.length + 1)) - 1 +
            2 ^ levels * 2 ^ (rest.length + 1) := by
          rw [← pow_add]
          omega
        rw [hsplit, Nat.add_mul_div_left _ _ (Nat.two_pow_pos levels)]
        omega

end Loki.Foundation.MerkleCounter
