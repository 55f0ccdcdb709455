import Mathlib.Data.Nat.Size
import Loki.Diem.Accumulator

/-!
# Positions in an accumulator

`types/src/proof/position/mod.rs`.  A node of the tree is named by its index in an in-order
traversal: the node number `pos` of level `level`, counted from the left, has the bits of `pos`,
a zero, and `level` ones.  The arithmetic is that of `u64`, also where a bit is shifted out.

`FrozenSubtreeSiblingIterator` takes one leaf at least in every step, so that the number of the
leaves that remain is enough fuel to run it to its end.
-/

namespace Loki.Diem

open Loki.Foundation BitVec Nat

/-- `u64::leading_zeros`. -/
def leadingZeros (n : Nat) : Nat := 64 - (bits n).length

structure Position where
  index : BitVec 64
  deriving DecidableEq, Repr

namespace Position

def isolateRightmostZeroBit (v : BitVec 64) : BitVec 64 := ~~~v &&& (v + 1)

def turnOffRightMostNBits (v : BitVec 64) (n : Nat) : BitVec 64 := v >>> n <<< n

variable (p : Position)

def level : Nat := trailingOnes p.index.toNat

def fromLevelAndPos (level : Nat) (pos : BitVec 64) : Position :=
  let levelOneBits : BitVec 64 := (1#64 <<< level) - 1
  let shiftedPos : BitVec 64 := if level = 63 then 0 else pos <<< (level + 1)
  ⟨shiftedPos ||| levelOneBits⟩

def fromInorderIndex (index : BitVec 64) : Position := ⟨index⟩

def fromLeafIndex (leafIndex : BitVec 64) : Position := fromLevelAndPos 0 leafIndex

def parent : Position :=
  ⟨(p.index ||| isolateRightmostZeroBit p.index) &&&
    ~~~(isolateRightmostZeroBit p.index <<< 1)⟩

def isLeftChild : Bool := p.index &&& (isolateRightmostZeroBit p.index <<< 1) == 0

def isRightChild : Bool := !p.isLeftChild

def leftMostChild : Position := ⟨turnOffRightMostNBits p.index p.level⟩

/-- The index of the first leaf below a node.  The leaf with index `i` has the position `2 * i`. -/
def firstLeaf : Nat := p.leftMostChild.index.toNat / 2

/-! ## Bits of a position -/

/-- `p` is the node number `pos` of a level.  From level 64 on, which no tree reaches, the position
is the one with all bits set. -/
def IsAt (level pos : Nat) : Prop := p.index.toNat = 2 ^ level * (2 * pos) + (2 ^ level - 1)

section

variable {p : Position} {level pos i : Nat}

section

variable (h : p.IsAt level pos)

include h

theorem IsAt.getLsbD (i : Nat) :
    p.index.getLsbD i = if i < level then true else (2 * pos).testBit (i - level) := by
  rw [BitVec.getLsbD, h, Nat.testBit_two_pow_mul_add _ (by have := Nat.two_pow_pos level; omega)]
  split <;> simp_all

theorem IsAt.getLsbD_add_one (hi : i < 64) :
    (p.index + 1).getLsbD i = if i < level then false else (2 * pos + 1).testBit (i - level) := by
  have hsum : p.index.toNat + 1 = 2 ^ level * (2 * pos + 1) + 0 := by
    have := Nat.two_pow_pos level
    rw [h, Nat.mul_add]
    omega
  have htoNat : (p.index + 1).toNat = (p.index.toNat + 1) % 2 ^ 64 := by simp
  rw [BitVec.getLsbD, htoNat, Nat.testBit_mod_two_pow, hsum,
    Nat.testBit_two_pow_mul_add _ (Nat.two_pow_pos level)]
  simp [hi]

theorem IsAt.isolateRightmostZeroBit_getLsbD (hi : i < 64) :
    (isolateRightmostZeroBit p.index).getLsbD i = decide (i = level) := by
  rw [isolateRightmostZeroBit, getLsbD_and, getLsbD_not, h.getLsbD, h.getLsbD_add_one hi]
  rcases Nat.lt_trichotomy i level with hlt | rfl | hgt
  · simp [hlt, hlt.ne]
  · simp [hi]
  · obtain ⟨k, rfl⟩ := Nat.exists_eq_add_of_lt hgt
    rw [add_assoc] at hi ⊢
    simp [testBit_succ, mul_add_div]

theorem IsAt.sibling_getLsbD (hi : i < 64) :
    (isolateRightmostZeroBit p.index <<< 1).getLsbD i = decide (i = level + 1) := by
  rw [getLsbD_shiftLeft]
  cases i with
  | zero => simp
  | succ => simp [hi, h.isolateRightmostZeroBit_getLsbD (lt_of_succ_lt hi)]

theorem IsAt.pos_lt (hlevel : level < 64) : pos < 2 ^ (63 - level) := by
  have hlt : 2 ^ level * (2 * pos) < 2 ^ level * (2 * 2 ^ (63 - level)) := by
    rw [← Nat.pow_succ', ← Nat.pow_add, show level + (63 - level).succ = 64 by omega]
    have := p.index.isLt
    rw [h] at this
    omega
  have := Nat.lt_of_mul_lt_mul_left hlt
  omega

theorem IsAt.pos_eq_zero (hlevel : 63 ≤ level) : pos = 0 := by
  have hlt := p.index.isLt
  have hpow : 2 ^ 63 ≤ 2 ^ level := Nat.pow_le_pow_right (by decide) hlevel
  rw [h] at hlt
  by_contra hpos
  have : 2 ^ level * 2 ≤ 2 ^ level * (2 * pos) := mul_le_mul_left _ (by omega)
  omega

theorem IsAt.isRightChild_iff : p.isRightChild = true ↔ pos % 2 = 1 := by
  have hbit : ∀ i < 64, (p.index &&& (isolateRightmostZeroBit p.index <<< 1)).getLsbD i =
      (decide (i = level + 1) && decide (pos % 2 = 1)) := by
    intro i hi
    rw [getLsbD_and, h.sibling_getLsbD hi, h.getLsbD]
    by_cases heq : i = level + 1
    · simp [heq, testBit_succ, testBit_zero]
    · simp [heq]
  rw [isRightChild, isLeftChild, Bool.not_eq_true', beq_eq_false_iff_ne]
  constructor
  · intro hne
    by_contra hpos
    exact hne (eq_of_getLsbD_eq fun i hi => by simp [hbit i hi, hpos])
  · intro hpos heq
    have hlevel : level + 1 < 64 := by
      by_contra hle
      have := h.pos_eq_zero (by omega)
      omega
    have := hbit (level + 1) hlevel
    simp [heq, hpos] at this

theorem IsAt.parent (hlevel : level < 64) : p.parent.IsAt (level + 1) (pos / 2) := by
  have hpos := h.pos_lt hlevel
  have hbound : 2 ^ (level + 1) * (2 * (pos / 2)) + (2 ^ (level + 1) - 1) < 2 ^ 64 := by
    have hle : 2 ^ level * (2 * (pos + 1)) ≤ 2 ^ 64 := by
      calc 2 ^ level * (2 * (pos + 1)) ≤ 2 ^ level * (2 * 2 ^ (63 - level)) :=
            mul_le_mul_left _ (by omega)
        _ = 2 ^ 64 := by
            rw [← pow_succ', ← pow_add, show level + (63 - level).succ = 64 by omega]
    have hhalf : 2 ^ (level + 1) * (2 * (pos / 2)) ≤ 2 ^ (level + 1) * pos :=
      mul_le_mul_left _ (by omega)
    have hsucc : 2 ^ (level + 1) * pos + 2 ^ (level + 1) = 2 ^ level * (2 * (pos + 1)) := by
      rw [Nat.pow_succ, ← Nat.mul_succ, Nat.mul_assoc]
    have := Nat.two_pow_pos (level + 1)
    omega
  have hparent : p.parent.index =
      BitVec.ofNat 64 (2 ^ (level + 1) * (2 * (pos / 2)) + (2 ^ (level + 1) - 1)) := by
    apply eq_of_getLsbD_eq
    intro i hi
    rw [Position.parent, getLsbD_and, getLsbD_or, getLsbD_not,
      h.sibling_getLsbD hi, h.isolateRightmostZeroBit_getLsbD hi, h.getLsbD, getLsbD_ofNat,
      Nat.testBit_two_pow_mul_add _ (by have := Nat.two_pow_pos (level + 1); omega),
      testBit_two_pow_sub_one]
    rcases Nat.lt_trichotomy i (level + 1) with hlt | rfl | hgt
    · rcases Nat.lt_succ_iff_lt_or_eq.mp hlt with hlt' | rfl
      · simp [hi, hlt, hlt', hlt.ne, hlt'.ne]
      · simp [hi]
    · simp
    · obtain ⟨k, rfl⟩ := Nat.exists_eq_add_of_lt hgt
      rw [show level + 1 + k + 1 = level + (k + 2) by omega] at hi ⊢
      rw [show level + (k + 2) - (level + 1) = k + 1 by omega]
      simp [hi, testBit_succ]
  rw [IsAt, hparent, toNat_ofNat, mod_eq_of_lt hbound]

theorem IsAt.exists_parent : ∃ level', p.parent.IsAt level' (pos / 2) := by
  by_cases hlevel : level < 64
  · exact ⟨level + 1, h.parent hlevel⟩
  · obtain rfl := h.pos_eq_zero (by omega)
    have hpow : 2 ^ 64 ≤ 2 ^ level := Nat.pow_le_pow_right (by decide) (by omega)
    have hindex : p.index = allOnes 64 := by
      apply eq_of_toNat_eq
      rw [IsAt] at h
      rw [toNat_allOnes]
      omega
    refine ⟨64, ?_⟩
    rw [IsAt, Position.parent, hindex]
    decide

end

theorem fromLeafIndex_isAt (leafIndex : BitVec 64) :
    (fromLeafIndex leafIndex).IsAt 0 (leafIndex.toNat % 2 ^ 63) := by
  have hindex : (fromLeafIndex leafIndex).index = leafIndex <<< 1 := by
    simp [fromLeafIndex, fromLevelAndPos]
  rw [IsAt, hindex, toNat_shiftLeft, Nat.shiftLeft_eq]
  omega

theorem trailingOnes_eq (level pos : Nat) :
    trailingOnes (2 ^ level * (2 * pos) + (2 ^ level - 1)) = level := by
  induction level with
  | zero =>
    rcases pos.eq_zero_or_pos with rfl | hpos
    · simp [trailingOnes]
    · simp [trailingOnes, bit0_bits _ hpos.ne']
  | succ level ih =>
    have hpow := Nat.two_pow_pos level
    have heq : 2 ^ (level + 1) * (2 * pos) + (2 ^ (level + 1) - 1) =
        2 * (2 ^ level * (2 * pos) + (2 ^ level - 1)) + 1 := by
      rw [pow_succ, mul_right_comm]
      omega
    rw [trailingOnes] at ih ⊢
    rw [heq, bit1_bits]
    simp [ih]

theorem IsAt.level_eq (h : p.IsAt level pos) : p.level = level := by
  rw [Position.level, h, trailingOnes_eq]

theorem IsAt.firstLeaf_eq (h : p.IsAt level pos) : p.firstLeaf = 2 ^ level * pos := by
  have hlt := p.index.isLt
  have hpow := Nat.two_pow_pos level
  have hdiv : p.index.toNat / 2 ^ level = 2 * pos := by
    rw [h, mul_add_div hpow, div_eq_of_lt (by omega), add_zero]
  rw [firstLeaf, leftMostChild, turnOffRightMostNBits, h.level_eq, toNat_shiftLeft,
    toNat_ushiftRight, Nat.shiftRight_eq_div_pow, hdiv, Nat.shiftLeft_eq]
  rw [h] at hlt
  rw [mod_eq_of_lt (by rw [mul_comm]; omega), mul_assoc,
    Nat.mul_div_cancel_left _ (by decide), Nat.mul_comm]

end

end Position

structure FrozenSubtreeSiblingIterator where
  currentNumLeaves : Nat
  remainingNewLeaves : Nat
  deriving DecidableEq, Repr

namespace FrozenSubtreeSiblingIterator

def new (currentNumLeaves newNumLeaves : Nat) : Outcome FrozenSubtreeSiblingIterator := do
  ensure (newNumLeaves ≤ maxAccumulatorLeaves) (.panic
    s!"An accumulator can have at most 2^63 leaves. Provided num_leaves: {newNumLeaves}.")
  ensure (currentNumLeaves ≤ newNumLeaves) (.panic
    s!"Number of leaves needs to be increasing: current_num_leaves: {currentNumLeaves}, new_num_leaves: {newNumLeaves}")
  return { currentNumLeaves, remainingNewLeaves := newNumLeaves - currentNumLeaves }

variable (it : FrozenSubtreeSiblingIterator)

def nextNewLeafBatch : Nat := 2 ^ (63 - leadingZeros it.remainingNewLeaves)

def nextSubtreeLeaves : Nat :=
  if 0 < it.currentNumLeaves then
    let rightmostFrozenSubtreeLeaves := 2 ^ trailingZeros it.currentNumLeaves
    if rightmostFrozenSubtreeLeaves ≤ it.remainingNewLeaves then rightmostFrozenSubtreeLeaves
    else it.nextNewLeafBatch
  else it.nextNewLeafBatch

def next : Option (Position × FrozenSubtreeSiblingIterator) :=
  if it.remainingNewLeaves = 0 then none
  else
    let firstLeafIndex := it.currentNumLeaves
    let lastLeafIndex := firstLeafIndex + it.nextSubtreeLeaves - 1
    some (Position.fromInorderIndex (BitVec.ofNat 64 (firstLeafIndex + lastLeafIndex)),
      { currentNumLeaves := it.currentNumLeaves + it.nextSubtreeLeaves
        remainingNewLeaves := it.remainingNewLeaves - it.nextSubtreeLeaves })

def collect : Nat → FrozenSubtreeSiblingIterator → List Position
  | 0, _ => []
  | fuel + 1, it =>
    match it.next with
    | none => []
    | some (position, it) => position :: collect fuel it

def toList : List Position := collect it.remainingNewLeaves it

variable {it : FrozenSubtreeSiblingIterator}

theorem nextSubtreeLeaves_pos (it : FrozenSubtreeSiblingIterator) : 0 < it.nextSubtreeLeaves := by
  dsimp only [nextSubtreeLeaves, nextNewLeafBatch]
  split
  · split <;> exact Nat.two_pow_pos _
  · exact Nat.two_pow_pos _

theorem nextSubtreeLeaves_of_le (hcurrent : 0 < it.currentNumLeaves)
    (h : 2 ^ trailingZeros it.currentNumLeaves ≤ it.remainingNewLeaves) :
    it.nextSubtreeLeaves = 2 ^ trailingZeros it.currentNumLeaves := by
  rw [nextSubtreeLeaves, if_pos hcurrent, if_pos h]

theorem nextSubtreeLeaves_of_lt
    (h : it.remainingNewLeaves < 2 ^ trailingZeros it.currentNumLeaves) :
    it.nextSubtreeLeaves = it.nextNewLeafBatch := by
  rw [nextSubtreeLeaves, if_neg h.not_ge, ite_self]

theorem collect_eq_of_le (fuel fuel' : Nat) (hfuel : it.remainingNewLeaves ≤ fuel)
    (hfuel' : it.remainingNewLeaves ≤ fuel') : collect fuel it = collect fuel' it := by
  induction fuel generalizing fuel' it with
  | zero =>
    cases fuel' with
    | zero => rfl
    | succ => simp [collect, next, le_zero.mp hfuel]
  | succ _ ih =>
    by_cases hzero : it.remainingNewLeaves = 0
    · cases fuel' <;> simp [collect, next, hzero]
    · obtain ⟨fuel', rfl⟩ := exists_eq_add_one_of_ne_zero (show fuel' ≠ 0 by omega)
      have hsize := it.nextSubtreeLeaves_pos
      simp only [collect, next, if_neg hzero]
      exact congrArg (List.cons _) (ih fuel' (by simp only; omega) (by simp only; omega))

theorem exists_nextNewLeafBatch (it : FrozenSubtreeSiblingIterator)
    (hpos : 0 < it.remainingNewLeaves) (hlt : it.remainingNewLeaves < 2 ^ 64) :
    ∃ level, it.nextNewLeafBatch = 2 ^ level ∧ 2 ^ level ≤ it.remainingNewLeaves ∧
      it.remainingNewLeaves < 2 ^ (level + 1) := by
  have hsize : 0 < it.remainingNewLeaves.size := size_pos.mpr hpos
  have hsize' : it.remainingNewLeaves.size ≤ 64 := size_le.mpr hlt
  refine ⟨it.remainingNewLeaves.size - 1, ?_, lt_size.mp (by omega), ?_⟩
  · rw [nextNewLeafBatch, leadingZeros, size_eq_bits_len]
    congr 1
    omega
  · rw [Nat.sub_add_cancel hsize]
    exact lt_size_self _

theorem toList_eq_cons {level pos} (hpos : 0 < it.remainingNewLeaves)
    (hsize : it.nextSubtreeLeaves = 2 ^ level) (hcurrent : it.currentNumLeaves = 2 ^ level * pos)
    (hbound : it.currentNumLeaves + 2 ^ level ≤ 2 ^ 63) :
    ∃ p, p.IsAt level pos ∧
      it.toList = p :: toList ⟨it.currentNumLeaves + 2 ^ level,
        it.remainingNewLeaves - 2 ^ level⟩ := by
  have hpow := Nat.two_pow_pos level
  obtain ⟨fuel, hfuel⟩ := exists_eq_add_one_of_ne_zero hpos.ne'
  refine ⟨.fromInorderIndex (BitVec.ofNat 64
    (it.currentNumLeaves + (it.currentNumLeaves + 2 ^ level - 1))), ?_, ?_⟩
  · rw [Position.IsAt, Position.fromInorderIndex, toNat_ofNat, mod_eq_of_lt (by omega),
      hcurrent, mul_left_comm]
    omega
  · simp only [toList, hfuel, collect, next, if_neg (succ_ne_zero fuel), hsize]
    exact congrArg (List.cons _) (collect_eq_of_le _ _ (by simp only; omega) le_rfl)

end FrozenSubtreeSiblingIterator

end Loki.Diem
