import Mathlib.Data.List.Basic

/-!
# Ordered sets by a comparison

A set is the list of its elements from the least to the greatest.  Elements that compare as equal
are one element, and the one that came first stays.
-/

namespace Loki.Foundation.BTreeSet

open List

variable {α : Type} (cmp : α → α → Ordering)

def insert (x : α) : List α → List α
  | [] => [x]
  | y :: ys =>
    match cmp x y with
    | .lt => x :: y :: ys
    | .eq => y :: ys
    | .gt => y :: insert x ys

def remove (x : α) (set : List α) : List α := set.filter fun y => cmp x y != .eq

def contains (x : α) (set : List α) : Bool := set.any fun y => cmp x y == .eq

variable {cmp} {x y : α} {set : List α}

theorem insert_cases (cmp : α → α → Ordering) (x : α) (set : List α) :
    (insert cmp x set = set ∧ ∃ y ∈ set, cmp x y = .eq) ∨
      ∃ front back, set = front ++ back ∧ insert cmp x set = front ++ x :: back := by
  induction set with
  | nil => exact .inr ⟨[], [], rfl, rfl⟩
  | cons z set ih =>
    cases hcmp : cmp x z with
    | lt => exact .inr ⟨[], z :: set, rfl, by simp [insert, hcmp]⟩
    | eq => exact .inl ⟨by simp [insert, hcmp], z, by simp, hcmp⟩
    | gt =>
      rcases ih with ⟨heq, w, hw, hcmp'⟩ | ⟨front, back, rfl, heq⟩
      · exact .inl ⟨by simp [insert, hcmp, heq], w, by simp [hw], hcmp'⟩
      · exact .inr ⟨z :: front, back, rfl, by simp [insert, hcmp, heq]⟩

theorem mem_of_mem_insert (h : y ∈ insert cmp x set) : y = x ∨ y ∈ set := by
  rcases insert_cases cmp x set with ⟨heq, -⟩ | ⟨_, _, rfl, heq⟩
  · exact .inr (heq ▸ h)
  · rw [heq] at h
    simp only [mem_append, mem_cons] at h ⊢
    tauto

theorem mem_insert_of_mem (h : y ∈ set) : y ∈ insert cmp x set := by
  rcases insert_cases cmp x set with ⟨heq, -⟩ | ⟨_, _, rfl, heq⟩
  · rwa [heq]
  · rw [heq]
    simp only [mem_append, mem_cons] at h ⊢
    tauto

theorem exists_mem_insert (hrefl : cmp x x = .eq) : ∃ y ∈ insert cmp x set, cmp x y = .eq := by
  rcases insert_cases cmp x set with ⟨heq, h⟩ | ⟨_, _, rfl, heq⟩
  · rwa [heq]
  · exact ⟨x, by rw [heq]; simp, hrefl⟩

theorem mem_insert (h : ∀ {y}, cmp x y = .eq ↔ x = y) : y ∈ insert cmp x set ↔ y = x ∨ y ∈ set := by
  refine ⟨mem_of_mem_insert, ?_⟩
  rintro (rfl | hmem)
  · obtain ⟨_, hfound, hcmp⟩ := (exists_mem_insert (h.mpr rfl) : ∃ found ∈ insert cmp y set, _)
    rwa [← h.mp hcmp] at hfound
  · exact mem_insert_of_mem hmem

theorem length_insert_le (x : α) (set : List α) : (insert cmp x set).length ≤ set.length + 1 := by
  rcases insert_cases cmp x set with ⟨heq, -⟩ | ⟨_, _, rfl, heq⟩
  · rw [heq]
    omega
  · rw [heq]
    simp only [length_append, length_cons]
    omega

theorem mem_remove : y ∈ remove cmp x set ↔ y ∈ set ∧ cmp x y ≠ .eq := by simp [remove]

theorem length_remove_le (x : α) (set : List α) : (remove cmp x set).length ≤ set.length :=
  length_filter_le _ _

theorem length_remove_lt (h : ∃ y ∈ set, cmp x y = .eq) :
    (remove cmp x set).length < set.length := by
  obtain ⟨y, hy, hcmp⟩ := h
  exact length_filter_lt_length_iff_exists.mpr ⟨y, hy, by simp [hcmp]⟩

theorem contains_iff : contains cmp x set = true ↔ ∃ y ∈ set, cmp x y = .eq := by simp [contains]

end Loki.Foundation.BTreeSet
