import Mathlib.Data.List.Basic

/-!
# Facts about a history

`Since start stop inputs` says that some input of a history met `start` and that no later one
met `stop`.  `Throughout P inputs` says that every input met `P`.  The conditions may look at
the inputs that came before.
-/

namespace Loki.Foundation

variable {ι : Type} {start stop : List ι → ι → Prop} {inputs : List ι} {x : ι}

def Since (start stop : List ι → ι → Prop) (inputs : List ι) : Prop :=
  ∃ before input after, inputs = before ++ input :: after ∧ start before input ∧
    ∀ between x rest, after = between ++ x :: rest → ¬ stop (before ++ input :: between) x

theorem not_since_nil : ¬ Since start stop [] := by
  rintro ⟨_, _, _, h, -⟩
  simp at h

/-- An input of a longer history is the last one, or stands in the history before it. -/
theorem eq_or_mem_of_concat {before after input} (heq : inputs ++ [x] = before ++ input :: after) :
    (before = inputs ∧ input = x ∧ after = []) ∨
      ∃ rest, after = rest ++ [x] ∧ inputs = before ++ input :: rest := by
  rcases List.eq_nil_or_concat after with rfl | ⟨after, y, rfl⟩
  · obtain ⟨rfl, h⟩ := List.append_inj' heq rfl
    cases h
    exact .inl ⟨rfl, rfl, rfl⟩
  · have heq : inputs ++ [x] = (before ++ input :: after) ++ [y] := by simpa using heq
    obtain ⟨rfl, h⟩ := List.append_inj' heq rfl
    cases h
    exact .inr ⟨after, by simp, rfl⟩

theorem since_concat :
    Since start stop (inputs ++ [x]) ↔
      start inputs x ∨ Since start stop inputs ∧ ¬ stop inputs x := by
  constructor
  · rintro ⟨before, input, after, heq, hstart, hstop⟩
    rcases eq_or_mem_of_concat heq with ⟨rfl, rfl, rfl⟩ | ⟨after, rfl, rfl⟩
    · exact .inl hstart
    · refine .inr ⟨⟨before, input, after, rfl, hstart, ?_⟩, hstop after x [] rfl⟩
      rintro between z rest rfl
      exact hstop between z (rest ++ [x]) (by simp)
  · rintro (hstart | ⟨⟨before, input, after, rfl, hstart, hstop⟩, hx⟩)
    · exact ⟨inputs, x, [], rfl, hstart, by simp⟩
    · refine ⟨before, input, after ++ [x], by simp, hstart, ?_⟩
      intro between z rest heq
      rcases eq_or_mem_of_concat heq with ⟨rfl, rfl, rfl⟩ | ⟨rest, rfl, rfl⟩
      · exact hx
      · exact hstop between z rest rfl

def Throughout (P : List ι → ι → Prop) (inputs : List ι) : Prop :=
  ∀ before input after, inputs = before ++ input :: after → P before input

theorem throughout_nil {P : List ι → ι → Prop} : Throughout P [] := by
  intro _ _ _ h
  simp at h

theorem throughout_concat {P} :
    Throughout P (inputs ++ [x]) ↔ Throughout P inputs ∧ P inputs x := by
  constructor
  · intro h
    refine ⟨?_, h inputs x [] rfl⟩
    rintro before input after rfl
    exact h before input (after ++ [x]) (by simp)
  · rintro ⟨hinputs, hx⟩ before input _ heq
    rcases eq_or_mem_of_concat heq with ⟨rfl, rfl, rfl⟩ | ⟨rest, rfl, rfl⟩
    · exact hx
    · exact hinputs before input rest rfl

end Loki.Foundation
