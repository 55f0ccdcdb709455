import Mathlib.Algebra.BigOperators.Group.Finset.Basic
import Mathlib.Algebra.Order.Ring.Nat
import Mathlib.Data.Nat.Log

/-!
# Merkle trees over a list of leaves

The tree of height `h` has room for `2 ^ h` leaves.  A list that ends early is padded on the right:
a subtree without leaves hashes to the placeholder, whatever its height.

`Opens` says that a value stands at an index some levels below a root.  With a hash that never
collides, and whose images are kept apart from the leaves and from the placeholder, what a root
opens to is the leaf at that index.
-/

namespace Loki.Foundation.MerkleTree

open List Nat

variable {α : Type} (node : α → α → α) (placeholder : α) {height index : Nat} {leaves : List α}

def subtree : Nat → List α → α
  | 0, leaves => leaves.headD placeholder
  | height + 1, leaves =>
    if leaves.isEmpty then placeholder
    else node (subtree height (leaves.take (2 ^ height)))
      (subtree height (leaves.drop (2 ^ height)))

/-- The height of the smallest tree with room for `count` leaves. -/
def depth (count : Nat) : Nat := clog 2 count

def root (leaves : List α) : α := subtree node placeholder (depth leaves.length) leaves

theorem le_two_pow_depth (count : Nat) : count ≤ 2 ^ depth count := le_pow_clog (by decide) count

@[simp] theorem depth_two_pow (height : Nat) : depth (2 ^ height) = height :=
  clog_pow 2 height (by decide)

theorem depth_eq {count} (hlt : 2 ^ height < count) (hle : count ≤ 2 ^ (height + 1)) :
    depth count = height + 1 := by
  have hupper : depth count ≤ height + 1 := clog_le_of_le_pow hle
  have hlower : height < depth count := (lt_clog_iff_pow_lt (by decide)).mpr hlt
  omega

@[simp] theorem subtree_nil (height : Nat) : subtree node placeholder height [] = placeholder := by
  cases height <;> simp [subtree]

@[simp] theorem subtree_zero_singleton (x : α) : subtree node placeholder 0 [x] = x := rfl

theorem subtree_succ_append {front back} (hfront : front.length = 2 ^ height) :
    subtree node placeholder (height + 1) (front ++ back) =
      node (subtree node placeholder height front) (subtree node placeholder height back) := by
  have hne : front ≠ [] := by
    rw [← length_pos_iff, hfront]
    exact Nat.two_pow_pos height
  rw [subtree, if_neg (by simp [hne]), ← hfront, take_left, drop_left]

theorem subtree_succ_of_length_le (hne : leaves ≠ []) (hle : leaves.length ≤ 2 ^ height) :
    subtree node placeholder (height + 1) leaves =
      node (subtree node placeholder height leaves) placeholder := by
  rw [subtree, if_neg (by simp [hne]), take_of_length_le hle, drop_eq_nil_of_le hle, subtree_nil]

/-! ## One level up -/

def pairUp : List α → List α
  | [] => []
  | [x] => [node x placeholder]
  | x :: y :: leaves => node x y :: pairUp leaves

section

variable (leaves : List α)

theorem length_pairUp : (pairUp node placeholder leaves).length = (leaves.length + 1) / 2 := by
  induction leaves using pairUp.induct with
  | case1 | case2 x => simp [pairUp]
  | case3 x y leaves ih =>
    simp only [pairUp, length_cons, ih]
    omega

theorem pairUp_take (k : Nat) :
    pairUp node placeholder (leaves.take (2 * k)) = (pairUp node placeholder leaves).take k := by
  induction leaves using pairUp.induct generalizing k with
  | case1 => simp [pairUp]
  | case2 x => cases k <;> simp [pairUp, mul_succ]
  | case3 x y leaves ih => cases k <;> simp [pairUp, mul_succ, ih]

theorem pairUp_drop (k : Nat) :
    pairUp node placeholder (leaves.drop (2 * k)) = (pairUp node placeholder leaves).drop k := by
  induction leaves using pairUp.induct generalizing k with
  | case1 => simp [pairUp]
  | case2 x => cases k <;> simp [pairUp, mul_succ]
  | case3 x y leaves ih => cases k <;> simp [pairUp, mul_succ, ih]

end

theorem subtree_pairUp (height : Nat) (hle : leaves.length ≤ 2 ^ (height + 1)) :
    subtree node placeholder (height + 1) leaves =
      subtree node placeholder height (pairUp node placeholder leaves) := by
  induction height generalizing leaves with
  | zero =>
    rcases leaves with _ | ⟨x, _ | ⟨y, _ | ⟨z, leaves⟩⟩⟩
    · rfl
    · rfl
    · rfl
    · simp at hle
  | succ height ih =>
    have hempty : (pairUp node placeholder leaves).isEmpty = leaves.isEmpty := by
      rcases leaves with _ | ⟨x, _ | ⟨y, leaves⟩⟩ <;> rfl
    rw [subtree, subtree.eq_2 node placeholder (pairUp node placeholder leaves), hempty]
    split
    · rfl
    · have htwo : 2 ^ (height + 1) = 2 * 2 ^ height := by rw [pow_succ, mul_comm]
      rw [ih (by simp), ih (by simp; omega), htwo, pairUp_take, pairUp_drop]

theorem root_pairUp (h : 2 ≤ leaves.length) :
    root node placeholder (pairUp node placeholder leaves) = root node placeholder leaves := by
  have hdepth : depth leaves.length = depth ((leaves.length + 1) / 2) + 1 :=
    clog_of_two_le (by decide) h
  have hle := le_two_pow_depth leaves.length
  rw [hdepth] at hle
  rw [root, root, length_pairUp, hdepth, subtree_pairUp _ _ _ hle]

theorem exists_root_eq (levels : Nat) (hne : leaves ≠ []) (hlevels : levels ≤ depth leaves.length) :
    ∃ nodes, nodes.length = (leaves.length - 1) / 2 ^ levels + 1 ∧
      root node placeholder nodes = root node placeholder leaves := by
  induction levels generalizing leaves with
  | zero =>
    have hpos := length_pos_iff.mpr hne
    exact ⟨leaves, by simp; omega, rfl⟩
  | succ _ ih =>
    have htwo : 2 ≤ leaves.length := by
      by_contra hlt
      have hone : depth leaves.length = 0 := clog_of_right_le_one (by omega) 2
      omega
    have hdepth : depth leaves.length = depth ((leaves.length + 1) / 2) + 1 :=
      clog_of_two_le (by decide) htwo
    have hlength := length_pairUp node placeholder leaves
    have hne' : pairUp node placeholder leaves ≠ [] := by
      rw [← length_pos_iff, hlength]
      omega
    obtain ⟨nodes, hnodes, hroot⟩ := ih hne' (by rw [hlength]; omega)
    refine ⟨nodes, ?_, hroot.trans (root_pairUp node placeholder htwo)⟩
    rw [hnodes, hlength, Nat.pow_succ', ← Nat.div_div_eq_div_mul]
    congr 2
    omega

/-! ## Openings -/

theorem mod_two_pow_succ_of_testBit {k} (h : index.testBit k = true) :
    index % 2 ^ (k + 1) = index % 2 ^ k + 2 ^ k := by
  rw [testBit_eq_decide_div_mod_eq, decide_eq_true_eq] at h
  rw [mod_pow_succ, h, mul_one]

theorem mod_two_pow_succ_of_not_testBit {k} (h : index.testBit k = false) :
    index % 2 ^ (k + 1) = index % 2 ^ k := by
  rw [testBit_eq_decide_div_mod_eq, decide_eq_false_iff_not] at h
  rw [mod_pow_succ, mod_two_ne_one.mp h, mul_zero, add_zero]

/-- `x` stands at `index`, `levels` below `top`. -/
def Opens : Nat → Nat → α → α → Prop
  | 0, _, top, x => top = x
  | levels + 1, index, top, x =>
    ∃ left right, top = node left right ∧
      Opens levels index (if index.testBit levels then right else left) x

variable {node placeholder}

theorem Opens.child {levels top left right}
    (h : Opens node levels (index / 2) top (node left right)) :
    Opens node (levels + 1) index top (if index % 2 = 1 then right else left) := by
  induction levels generalizing top with
  | zero =>
    refine ⟨left, right, h, ?_⟩
    simp [Opens, testBit_zero]
  | succ _ ih =>
    obtain ⟨l, r, rfl, hchild⟩ := h
    refine ⟨l, r, rfl, ?_⟩
    rw [testBit_succ]
    exact ih hchild

/-- No collisions, and three kinds of values that are kept apart: the images of `node`, the
placeholder and the leaves. -/
structure Separated (node : α → α → α) (placeholder : α) (leaves : List α) : Prop where
  node_injective : ∀ {l r l' r'}, node l r = node l' r' → l = l' ∧ r = r'
  placeholder_ne_node : ∀ l r, placeholder ≠ node l r
  leaf_ne_node : ∀ x ∈ leaves, ∀ l r, x ≠ node l r
  leaf_ne_placeholder : ∀ x ∈ leaves, x ≠ placeholder

namespace Separated

variable {leaves : List α} {x : α} {height : Nat}

section

variable (h : Separated node placeholder leaves)

include h

theorem of_subset {sub} (hsub : sub ⊆ leaves) : Separated node placeholder sub where
  node_injective := h.node_injective
  placeholder_ne_node := h.placeholder_ne_node
  leaf_ne_node := fun x hx => h.leaf_ne_node x (hsub hx)
  leaf_ne_placeholder := fun x hx => h.leaf_ne_placeholder x (hsub hx)

theorem subtree_eq_placeholder (hsubtree : subtree node placeholder height leaves = placeholder) :
    leaves = [] := by
  by_contra hne
  cases height with
  | zero =>
    obtain ⟨leaf, _, rfl⟩ := exists_cons_of_ne_nil hne
    exact h.leaf_ne_placeholder leaf (by simp) hsubtree
  | succ =>
    rw [subtree, if_neg (by simp [hne])] at hsubtree
    exact h.placeholder_ne_node _ _ hsubtree.symm

theorem subtree_eq_node (hne : leaves ≠ []) {l r}
    (hsubtree : node l r = subtree node placeholder height leaves) :
    ∃ lower, height = lower + 1 ∧
      l = subtree node placeholder lower (leaves.take (2 ^ lower)) ∧
      r = subtree node placeholder lower (leaves.drop (2 ^ lower)) := by
  cases height with
  | zero =>
    obtain ⟨leaf, _, rfl⟩ := exists_cons_of_ne_nil hne
    exact absurd hsubtree.symm (h.leaf_ne_node leaf (by simp) l r)
  | succ height =>
    rw [subtree, if_neg (by simp [hne])] at hsubtree
    exact ⟨height, rfl, h.node_injective hsubtree⟩

theorem not_opens_placeholder {levels index} (hx : x ≠ placeholder) :
    ¬ Opens node levels index placeholder x := by
  intro hopens
  cases levels with
  | zero => exact hx hopens.symm
  | succ =>
    obtain ⟨l, r, heq, -⟩ := hopens
    exact h.placeholder_ne_node l r heq

theorem opens_subtree {levels index} (hlength : leaves.length ≤ 2 ^ height)
    (hnode : ∀ l r, x ≠ node l r) (hx : x ≠ placeholder)
    (hopens : Opens node levels index (subtree node placeholder height leaves) x) :
    levels = height ∧ leaves[index % 2 ^ height]? = some x := by
  induction height generalizing leaves levels with
  | zero =>
    rcases leaves with _ | ⟨leaf, _ | ⟨_, leaves⟩⟩
    · exact absurd hopens (h.not_opens_placeholder hx)
    · cases levels with
      | zero => simpa [Opens, mod_one] using hopens
      | succ =>
        obtain ⟨l, r, heq, -⟩ := hopens
        exact absurd heq (h.leaf_ne_node leaf (by simp) l r)
    · simp at hlength
  | succ _ ih =>
    by_cases hnil : leaves = []
    · rw [hnil, subtree_nil] at hopens
      exact absurd hopens (h.not_opens_placeholder hx)
    rw [subtree, if_neg (by simp [hnil])] at hopens
    cases levels with
    | zero => exact absurd hopens.symm (hnode _ _)
    | succ levels =>
      obtain ⟨l, r, heq, hchild⟩ := hopens
      obtain ⟨rfl, rfl⟩ := h.node_injective heq
      -- The highest bit of the index selects the half, the others the leaf in it.
      cases hbit : index.testBit levels with
      | true =>
        rw [hbit, if_pos rfl] at hchild
        obtain ⟨rfl, hget⟩ := ih (h.of_subset (drop_subset _ _)) (by rw [length_drop]; omega) hchild
        rw [getElem?_drop, add_comm] at hget
        rw [mod_two_pow_succ_of_testBit hbit]
        exact ⟨rfl, hget⟩
      | false =>
        rw [hbit, if_neg (by simp)] at hchild
        obtain ⟨rfl, hget⟩ := ih (h.of_subset (take_subset _ _)) (by rw [length_take]; omega) hchild
        rw [getElem?_take_of_lt (Nat.mod_lt _ (Nat.two_pow_pos levels))] at hget
        rw [mod_two_pow_succ_of_not_testBit hbit]
        exact ⟨rfl, hget⟩

end

end Separated

end Loki.Foundation.MerkleTree
