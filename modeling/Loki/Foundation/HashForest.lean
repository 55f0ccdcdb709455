import Mathlib.Data.List.Forall2
import Mathlib.Tactic.Ring

/-!
# Forests of hashes that grow from the left

A counter whose digits are lists of hashes, the lowest level first.  A level that gets more than
`degree` hashes is combined into one hash of the next level.  `Block` says of which items a hash
was made, and `Covers` that the hashes of a forest were made of a list of items, in its order.
-/

namespace Loki.Foundation.HashForest

open List

variable {α β : Type} (degree : Nat) (combine : List β → β) (Leaf : List α → β → Prop)
  {blocks : List (List α)} {R : List α → β → Prop} {hashes : List β} {t u : Nat × List β}

def carry (h : β) : List (List β) → List (List β)
  | [] => [[h]]
  | hashes :: levels =>
    if degree < (hashes ++ [h]).length then [] :: carry (combine (hashes ++ [h])) levels
    else (hashes ++ [h]) :: levels

/-- A full block of the given level; `Leaf` are those of level zero. -/
def Block : Nat → List α → β → Prop
  | 0, items, h => Leaf items h
  | level + 1, items, h => ∃ blocks hashes, blocks.length = degree + 1 ∧
      Forall₂ (Block level) blocks hashes ∧ items = blocks.flatten ∧ h = combine hashes

def Covers : Nat → List (List β) → List α → Prop
  | _, [], items => items = []
  | level, hashes :: levels, items => ∃ front blocks, Covers (level + 1) levels front ∧
      Forall₂ (Block degree combine Leaf level) blocks hashes ∧ items = front ++ blocks.flatten

def Bounded (levels : List (List β)) : Prop := ∀ hashes ∈ levels, hashes.length ≤ degree

variable {degree combine Leaf} {level size : Nat} {levels : List (List β)} {items : List α} {h : β}

/-! ## Blocks -/

theorem length_flatten_of_forall {n : Nat} (hblocks : ∀ block ∈ blocks, block.length = n) :
    blocks.flatten.length = blocks.length * n := by
  induction blocks with
  | nil => simp
  | cons block _ ih =>
    rw [flatten_cons, length_append, hblocks block (by simp),
      ih fun other hother => hblocks other (by simp [hother]), length_cons]
    ring

theorem forall_left_of_forall₂ {P : List α → Prop} (hR : ∀ block h, R block h → P block)
    (h : Forall₂ R blocks hashes) : ∀ block ∈ blocks, P block := by
  induction h with
  | nil => simp
  | cons hhead _ ih => exact forall_mem_cons.mpr ⟨hR _ _ hhead, ih⟩

theorem Block.length_eq (hleaf : ∀ items h, Leaf items h → items.length = size)
    (hblock : Block degree combine Leaf level items h) :
    items.length = size * (degree + 1) ^ level := by
  induction level generalizing items h with
  | zero => simpa using hleaf items h hblock
  | succ _ ih =>
    obtain ⟨_, _, hlength, hblocks, rfl, rfl⟩ := hblock
    have hsize := forall_left_of_forall₂ (fun _ h hb => ih hb) hblocks
    rw [length_flatten_of_forall hsize, hlength]
    ring

theorem length_of_mem_blocks (hleaf : ∀ items h, Leaf items h → items.length = size)
    (hblocks : Forall₂ (Block degree combine Leaf level) blocks hashes) :
    ∀ block ∈ blocks, block.length = size * (degree + 1) ^ level :=
  forall_left_of_forall₂ (fun _ _ hblock => hblock.length_eq hleaf) hblocks

theorem eq_take_of_flatten_prefix {other : List (List α)} {n whole}
    (hblocks : ∀ block ∈ blocks, block.length = n) (hother : ∀ block ∈ other, block.length = n)
    (hpre : blocks.flatten <+: whole) (hpre' : other.flatten <+: whole)
    (hle : blocks.length ≤ other.length) : blocks = other.take blocks.length := by
  induction blocks generalizing other whole with
  | nil => simp
  | cons block _ ih =>
    rcases other with _ | ⟨first, _⟩
    · simp at hle
    · rw [flatten_cons] at hpre hpre'
      obtain ⟨_, rfl⟩ := hpre
      have hlength : block.length = first.length := by
        rw [hblocks block (by simp), hother first (by simp)]
      obtain ⟨rest', hrest⟩ := hpre'
      rw [append_assoc, append_assoc] at hrest
      obtain ⟨hfirst, htail⟩ := append_inj hrest hlength.symm
      rw [length_cons, take_succ_cons, hfirst]
      congr 1
      refine ih (fun b hb => hblocks b (by simp [hb])) (fun b hb => hother b (by simp [hb]))
        (prefix_append ..) ⟨rest', htail⟩ (by simpa using hle)

theorem forall₂_unique {hashes' : List β} (h : Forall₂ R blocks hashes)
    (h' : Forall₂ R blocks hashes') (hR : ∀ block h h', R block h → R block h' → h = h') :
    hashes = hashes' := by
  induction h generalizing hashes' with
  | nil =>
    cases h'
    rfl
  | cons hhead _ ih =>
    cases h' with
    | cons hhead' htail' => rw [hR _ _ _ hhead hhead', ih htail']

theorem Block.unique (hleaf : ∀ items h, Leaf items h → items.length = size)
    (hunique : ∀ items h h', Leaf items h → Leaf items h' → h = h') {h' : β}
    (hblock : Block degree combine Leaf level items h)
    (hblock' : Block degree combine Leaf level items h') : h = h' := by
  induction level generalizing items h h' with
  | zero => exact hunique items h h' hblock hblock'
  | succ _ ih =>
    obtain ⟨blocks, hashes, hlength, hblocks, rfl, rfl⟩ := hblock
    obtain ⟨blocks', hashes', hlength', hblocks', hitems, rfl⟩ := hblock'
    have heq : blocks = blocks'.take blocks.length :=
      eq_take_of_flatten_prefix (length_of_mem_blocks hleaf hblocks)
        (length_of_mem_blocks hleaf hblocks') (prefix_refl _) (hitems ▸ prefix_refl _)
        (by omega)
    rw [hlength, ← hlength', take_length] at heq
    subst heq
    have hhashes : hashes = hashes' :=
      forall₂_unique hblocks hblocks' fun _ _ _ hblock hblock' => ih hblock hblock'
    rw [hhashes]

/-! ## Forests -/

theorem carry_ne_nil : carry degree combine h levels ≠ [] := by
  cases levels with
  | nil => simp [carry]
  | cons =>
    unfold carry
    split <;> simp

theorem covers_carry (hbounded : Bounded degree levels) {block : List α}
    (hcovers : Covers degree combine Leaf level levels items)
    (hblock : Block degree combine Leaf level block h) :
    Covers degree combine Leaf level (carry degree combine h levels) (items ++ block) := by
  induction levels generalizing level items block h with
  | nil =>
    obtain rfl : items = [] := hcovers
    exact ⟨[], [block], rfl, .cons hblock .nil, by simp⟩
  | cons hashes _ ih =>
    obtain ⟨front, blocks, hfront, hblocks, rfl⟩ := hcovers
    have happend : Forall₂ (Block degree combine Leaf level) (blocks ++ [block])
        (hashes ++ [h]) := rel_append hblocks (.cons hblock .nil)
    unfold carry
    split
    case isFalse => exact ⟨front, blocks ++ [block], hfront, happend, by simp⟩
    next hfull =>
      have hle := hbounded hashes (mem_cons_self ..)
      have hlength : (blocks ++ [block]).length = degree + 1 := by
        rw [happend.length_eq]
        simp only [length_append, length_singleton] at hfull ⊢
        omega
      have hnext : Block degree combine Leaf (level + 1) (blocks ++ [block]).flatten
          (combine (hashes ++ [h])) := ⟨_, _, hlength, happend, rfl, rfl⟩
      have hrest := ih (fun other hother => hbounded other (mem_cons_of_mem _ hother)) hfront hnext
      exact ⟨_, [], hrest, .nil, by simp⟩

theorem bounded_carry (hdegree : 0 < degree) (hbounded : Bounded degree levels) :
    Bounded degree (carry degree combine h levels) := by
  induction levels generalizing h with
  | nil =>
    simp only [carry, Bounded, mem_singleton, forall_eq, length_singleton]
    omega
  | cons _ levels ih =>
    have hrest : Bounded degree levels := fun other hother =>
      hbounded other (mem_cons_of_mem _ hother)
    unfold carry
    split
    · exact forall_mem_cons.mpr ⟨by simp, ih hrest⟩
    next hle => exact forall_mem_cons.mpr ⟨Nat.le_of_not_lt hle, hrest⟩

theorem Covers.length_le (hleaf : ∀ items h, Leaf items h → items.length = size)
    (hbounded : Bounded degree levels) (hcovers : Covers degree combine Leaf level levels items) :
    items.length + size * (degree + 1) ^ level ≤ size * (degree + 1) ^ (level + levels.length) := by
  induction levels generalizing level items with
  | nil =>
    obtain rfl : items = [] := hcovers
    simp
  | cons hashes levels ih =>
    obtain ⟨_, blocks, hfront, hblocks, rfl⟩ := hcovers
    have hrest := ih (fun other hother => hbounded other (mem_cons_of_mem _ hother)) hfront
    have hlength := length_flatten_of_forall (length_of_mem_blocks hleaf hblocks)
    have hle : blocks.length ≤ degree := hblocks.length_eq ▸ hbounded hashes (mem_cons_self ..)
    have hmul : blocks.length * (size * (degree + 1) ^ level) ≤
        degree * (size * (degree + 1) ^ level) := Nat.mul_le_mul_right _ hle
    have hpow : size * (degree + 1) ^ (level + 1) =
        degree * (size * (degree + 1) ^ level) + size * (degree + 1) ^ level := by ring
    rw [length_append, hlength, length_cons,
      show level + (levels.length + 1) = level + 1 + levels.length by omega]
    omega

def top (levels : List (List β)) : Nat × List β := (levels.length, levels.getLast?.getD [])

theorem Bounded.top_le (hbounded : Bounded degree levels) : (top levels).2.length ≤ degree := by
  unfold top
  cases hlast : levels.getLast? with
  | none => simp
  | some hashes => exact hbounded hashes (mem_of_getLast? hlast)

/-- The highest level grows by a hash at its end, or is combined into one above it. -/
inductive Grows (degree : Nat) : Nat × List β → Nat × List β → Prop where
  | same (t : Nat × List β) : Grows degree t t
  | push (n : Nat) (hashes : List β) (h : β) (hle : hashes.length < degree) :
      Grows degree (n, hashes) (n, hashes ++ [h])
  | rise (n : Nat) (hashes : List β) (h : β) (hlength : hashes.length = degree) :
      Grows degree (n, hashes) (n + 1, [h])

def Precedes (t u : Nat × List β) : Prop := t.1 < u.1 ∨ t.1 = u.1 ∧ t.2 <+: u.2

theorem Precedes.refl (t : Nat × List β) : Precedes t t := .inr ⟨rfl, prefix_refl _⟩

theorem Precedes.trans {v : Nat × List β} (h : Precedes t u) (h' : Precedes u v) :
    Precedes t v := by
  rcases h with hlt | ⟨heq, hpre⟩
  · rcases h' with hlt' | ⟨heq', -⟩
    · exact .inl (hlt.trans hlt')
    · exact .inl (heq' ▸ hlt)
  · rcases h' with hlt' | ⟨heq', hpre'⟩
    · exact .inl (heq ▸ hlt')
    · exact .inr ⟨heq.trans heq', hpre.trans hpre'⟩

theorem Grows.precedes (h : Grows degree t u) : Precedes t u := by
  cases h with
  | same => exact .refl _
  | push => exact .inr ⟨rfl, prefix_append ..⟩
  | rise n => exact .inl (Nat.lt_succ_self n)

theorem top_cons (hashes : List β) (hne : levels ≠ []) :
    top (hashes :: levels) = ((top levels).1 + 1, (top levels).2) := by
  rcases exists_cons_of_ne_nil hne with ⟨_, _, rfl⟩
  simp [top]

theorem grows_carry (hbounded : Bounded degree levels) (hne : levels ≠ []) :
    Grows degree (top levels) (top (carry degree combine h levels)) := by
  induction levels generalizing h with
  | nil => exact absurd rfl hne
  | cons hashes levels ih =>
    have hle := hbounded hashes (mem_cons_self ..)
    rcases levels with _ | ⟨next, levels⟩
    · unfold carry
      split
      next hfull =>
        simp only [length_append, length_singleton] at hfull
        exact .rise 1 hashes _ (by omega)
      next hroom =>
        simp only [length_append, length_singleton] at hroom
        exact .push 1 hashes h (by omega)
    · unfold carry
      split
      · have hgrows := ih (h := combine (hashes ++ [h]))
          (fun other hother => hbounded other (mem_cons_of_mem _ hother)) (by simp)
        rw [top_cons _ (by simp), top_cons _ carry_ne_nil]
        generalize top (next :: levels) = t at hgrows ⊢
        generalize top (carry degree combine (combine (hashes ++ [h])) (next :: levels)) = t'
          at hgrows ⊢
        cases hgrows with
        | same => exact .same _
        | push _ hashes h hle => exact .push _ hashes h hle
        | rise _ hashes h hlength => exact .rise _ hashes h hlength
      · exact .same _

theorem Covers.exists_top (hne : levels ≠ [])
    (hcovers : Covers degree combine Leaf level levels items) :
    ∃ blocks, Forall₂ (Block degree combine Leaf (level + levels.length - 1)) blocks
      (top levels).2 ∧ blocks.flatten <+: items := by
  induction levels generalizing level items with
  | nil => exact absurd rfl hne
  | cons _ levels ih =>
    obtain ⟨front, blocks, hfront, hblocks, rfl⟩ := hcovers
    rcases levels with _ | ⟨next, levels⟩
    · obtain rfl : front = [] := hfront
      exact ⟨blocks, by simpa [top] using hblocks, by simp⟩
    · obtain ⟨blocks', _, hpre⟩ := ih (by simp) hfront
      refine ⟨blocks', ?_, hpre.trans (prefix_append ..)⟩
      rw [top_cons _ (by simp), length_cons]
      rwa [show level + ((next :: levels).length + 1) - 1 =
        level + 1 + (next :: levels).length - 1 by omega]

end Loki.Foundation.HashForest
