/-!
# Runs with a condition on their inputs

A machine takes one input after the other.  `Along` says that each input of a run meets a
condition on it and on the state it finds.
-/

namespace Loki.Foundation

open List

variable {σ ι : Type} {step : σ → ι → σ} {C : σ → ι → Prop} {s : σ} {inputs : List ι}
  {D : σ → ι → Prop}

def Along (step : σ → ι → σ) (C : σ → ι → Prop) (s : σ) : List ι → Prop
  | [] => True
  | input :: inputs => C s input ∧ Along step C (step s input) inputs

instance instDecidableAlong [∀ s input, Decidable (C s input)] :
    ∀ (s : σ) (inputs : List ι), Decidable (Along step C s inputs)
  | _, [] => isTrue trivial
  | s, input :: inputs =>
    have : Decidable (Along step C (step s input) inputs) := instDecidableAlong _ inputs
    inferInstanceAs (Decidable (C s input ∧ Along step C (step s input) inputs))

theorem along_append {rest} : Along step C s (inputs ++ rest) ↔
    Along step C s inputs ∧ Along step C (inputs.foldl step s) rest := by
  induction inputs generalizing s with
  | nil => simp [Along]
  | cons _ _ ih => simp only [cons_append, Along, ih, foldl_cons, and_assoc]

theorem Along.of_forall (h : ∀ s, ∀ input ∈ inputs, C s input) : Along step C s inputs := by
  induction inputs generalizing s with
  | nil => trivial
  | cons input _ ih =>
    exact ⟨h s input (mem_cons_self ..),
      ih fun s other hother => h s other (mem_cons_of_mem _ hother)⟩

theorem Along.and (h : Along step C s inputs) (h' : Along step D s inputs) :
    Along step (fun s input => C s input ∧ D s input) s inputs := by
  induction inputs generalizing s with
  | nil => trivial
  | cons _ _ ih => exact ⟨⟨h.1, h'.1⟩, ih h.2 h'.2⟩

theorem Along.invariant {P : σ → Prop} (hstep : ∀ s input, P s → C s input → P (step s input))
    (hs : P s) (h : Along step C s inputs) : P (inputs.foldl step s) := by
  induction inputs generalizing s with
  | nil => exact hs
  | cons input _ ih => exact ih (hstep s input hs h.1) h.2

/-- A condition that follows from an invariant is met by every input. -/
theorem Along.of_invariant {P : σ → Prop} (hstep : ∀ s input, P s → C s input → P (step s input))
    (hD : ∀ s input, P s → C s input → D s input) (hs : P s) (h : Along step C s inputs) :
    Along step D s inputs := by
  induction inputs generalizing s with
  | nil => trivial
  | cons input _ ih => exact ⟨hD s input hs h.1, ih (hstep s input hs h.1) h.2⟩

/-! ## What a fold does to one observation -/

section Fold

variable {β : Type} {s : σ}

theorem foldl_eq {g : σ → β} (hstep : ∀ s input, g (step s input) = g s) (inputs : List ι) :
    g (inputs.foldl step s) = g s := by
  induction inputs generalizing s with
  | nil => rfl
  | cons _ _ ih => rw [foldl_cons, ih, hstep]

theorem foldl_le {g : σ → Nat} (hstep : ∀ s input, g (step s input) ≤ g s) (inputs : List ι) :
    g (inputs.foldl step s) ≤ g s := by
  induction inputs generalizing s with
  | nil => exact Nat.le_refl _
  | cons input _ ih => exact Nat.le_trans ih (hstep s input)

variable {I P : σ → Prop} {Q : ι → Prop} (hI : ∀ s input, I s → I (step s input))

include hI

theorem foldl_iff_and (hstep : ∀ s input, I s → (P (step s input) ↔ P s ∧ Q input))
    (inputs : List ι) (hs : I s) :
    P (inputs.foldl step s) ↔ P s ∧ ∀ input ∈ inputs, Q input := by
  induction inputs generalizing s with
  | nil => simp
  | cons input _ ih =>
    rw [foldl_cons, ih (hI s input hs), hstep s input hs, forall_mem_cons, and_assoc]

theorem foldl_iff_or (hstep : ∀ s input, I s → (P (step s input) ↔ P s ∨ Q input))
    (inputs : List ι) (hs : I s) :
    P (inputs.foldl step s) ↔ P s ∨ ∃ input ∈ inputs, Q input := by
  induction inputs generalizing s with
  | nil => simp
  | cons input _ ih =>
    rw [foldl_cons, ih (hI s input hs), hstep s input hs, or_assoc]
    simp

end Fold

end Loki.Foundation
