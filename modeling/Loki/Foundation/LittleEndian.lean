import Mathlib.Tactic.Ring

/-!
# Little-endian bytes

`leBytes size n` are the `size` low bytes of `n`, the least significant one first, and `leValue`
reads bytes in that order.  `accumulate` is the loop that reads them with a running multiplier,
in arithmetic modulo `m`; the modulus zero stands for unbounded integers.
-/

namespace Loki.Foundation

open Nat

def leBytes : Nat → Nat → List UInt8
  | 0, _ => []
  | size + 1, n => UInt8.ofNat n :: leBytes size (n / 256)

def leValue : List UInt8 → Nat
  | [] => 0
  | byte :: bytes => byte.toNat + 256 * leValue bytes

@[simp] theorem length_leBytes (size n : Nat) : (leBytes size n).length = size := by
  induction size generalizing n with
  | zero => rfl
  | succ _ ih => simp [leBytes, ih]

theorem leValue_leBytes (size n : Nat) : leValue (leBytes size n) = n % 256 ^ size := by
  induction size generalizing n with
  | zero => simp [leBytes, leValue, mod_one]
  | succ size ih =>
    have hmod : n % 256 ^ (size + 1) = n % 256 + 256 * (n / 256 % 256 ^ size) := by
      rw [pow_succ', mod_mul]
    simp [leBytes, leValue, ih, hmod]

theorem leValue_leBytes_of_lt {size n} (h : n < 256 ^ size) : leValue (leBytes size n) = n := by
  rw [leValue_leBytes, mod_eq_of_lt h]

theorem leValue_lt (bytes : List UInt8) : leValue bytes < 256 ^ bytes.length := by
  induction bytes with
  | nil => decide
  | cons byte bytes ih =>
    have hbyte := byte.toNat_lt
    rw [leValue, List.length_cons, pow_succ]
    omega

def accumulate (m : Nat) : Nat → Nat → List UInt8 → Nat
  | _, value, [] => value
  | multiplier, value, byte :: bytes =>
    accumulate m (multiplier * 256 % m) ((value + byte.toNat * multiplier) % m) bytes

theorem accumulate_eq (m multiplier value : Nat) (bytes : List UInt8) :
    accumulate m multiplier value bytes % m = (value + multiplier * leValue bytes) % m := by
  induction bytes generalizing multiplier value with
  | nil => simp [accumulate, leValue]
  | cons byte bytes ih =>
    have hadd : value + multiplier * leValue (byte :: bytes) =
        (value + byte.toNat * multiplier) + multiplier * 256 * leValue bytes := by
      simp only [leValue]
      ring
    rw [accumulate, ih, hadd, add_mod, mod_mod, mod_mul_mod, ← add_mod]

theorem accumulate_lt {m value} (multiplier : Nat) (bytes : List UInt8) (h : value < m) :
    accumulate m multiplier value bytes < m := by
  induction bytes generalizing multiplier value with
  | nil => exact h
  | cons _ _ ih => exact ih _ (mod_lt _ (by omega))

theorem accumulate_of_lt {m multiplier value bytes} (h : value + multiplier * leValue bytes < m) :
    accumulate m multiplier value bytes = value + multiplier * leValue bytes := by
  have heq := accumulate_eq m multiplier value bytes
  rwa [mod_eq_of_lt h, mod_eq_of_lt (accumulate_lt multiplier bytes (by omega))] at heq

theorem accumulate_zero (value : Nat) (bytes : List UInt8) :
    accumulate 0 1 value bytes = value + leValue bytes := by
  have h := accumulate_eq 0 1 value bytes
  simpa using h

def countBytes (n : Nat) : Nat :=
  if n / 256 = 0 then 1 else countBytes (n / 256) + 1
termination_by n
decreasing_by omega

theorem countBytes_pos (n : Nat) : 0 < countBytes n := by
  unfold countBytes
  split_ifs <;> omega

theorem countBytes_le_iff (n k : Nat) : countBytes n ≤ k + 1 ↔ n < 256 ^ (k + 1) := by
  induction k generalizing n with
  | zero =>
    unfold countBytes
    split_ifs with h
    · simp
      omega
    · have hpos := countBytes_pos (n / 256)
      omega
  | succ k ih =>
    unfold countBytes
    split_ifs with h
    · have hpow : 256 ≤ 256 ^ (k + 1 + 1) := le_self_pow (by omega) 256
      constructor
      · intro _
        omega
      · intro _
        omega
    · rw [add_le_add_iff_right, ih, div_lt_iff_lt_mul (by omega), pow_succ 256 (k + 1)]

theorem lt_pow_countBytes (n : Nat) : n < 256 ^ countBytes n := by
  obtain ⟨k, hk⟩ := exists_eq_succ_of_ne_zero (countBytes_pos n).ne'
  rw [hk]
  exact (countBytes_le_iff n k).mp (by omega)

theorem lt_countBytes_of_le {n k} (h : 256 ^ (k + 1) ≤ n) : k + 1 < countBytes n := by
  by_contra hle
  have hlt := (countBytes_le_iff n k).mp (by omega)
  omega

end Loki.Foundation
