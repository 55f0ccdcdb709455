import Loki.Foundation.Call

/-!
# Arithmetic that is checked

Sums and differences of unsigned machine integers, where a result out of range ends the program.
-/

namespace Loki.Foundation

variable {ε : Type} {bound a b c : Nat}

def checkedAdd (bound a b : Nat) : Except (Fault ε) Nat :=
  if a + b < bound then .ok (a + b) else .error (.panic "attempt to add with overflow")

def checkedSub (a b : Nat) : Except (Fault ε) Nat :=
  if b ≤ a then .ok (a - b) else .error (.panic "attempt to subtract with overflow")

@[simp] theorem checkedAdd_eq_ok :
    (checkedAdd bound a b : Except (Fault ε) Nat) = .ok c ↔ a + b < bound ∧ a + b = c := by
  by_cases h : a + b < bound
  · simp [checkedAdd, h]
  · simp [checkedAdd, h]

@[simp] theorem checkedSub_eq_ok :
    (checkedSub a b : Except (Fault ε) Nat) = .ok c ↔ b ≤ a ∧ a - b = c := by
  by_cases h : b ≤ a
  · simp [checkedSub, h]
  · simp [checkedSub, h]

theorem checkedAdd_of_lt (h : a + b < bound) :
    (checkedAdd bound a b : Except (Fault ε) Nat) = .ok (a + b) := by
  simp [h]

theorem checkedSub_of_le (h : b ≤ a) : (checkedSub a b : Except (Fault ε) Nat) = .ok (a - b) := by
  simp [h]

end Loki.Foundation
