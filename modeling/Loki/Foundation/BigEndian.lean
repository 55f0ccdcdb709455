import Mathlib.Algebra.Order.Ring.Nat

/-!
# Big-endian bytes

`beBytes size n` are the `size` low bytes of `n`, the most significant one first, and `beValue`
reads bytes in that order.  Byte strings of one length are ordered as their values are.
-/

namespace Loki.Foundation

open List

def beBytes : Nat → Nat → List UInt8
  | 0, _ => []
  | size + 1, n => UInt8.ofNat (n / 256 ^ size) :: beBytes size n

def beValue : List UInt8 → Nat
  | [] => 0
  | byte :: bytes => byte.toNat * 256 ^ bytes.length + beValue bytes

@[simp] theorem length_beBytes (size n : Nat) : (beBytes size n).length = size := by
  induction size with
  | zero => rfl
  | succ _ ih => simp [beBytes, ih]

theorem beValue_beBytes (size n : Nat) : beValue (beBytes size n) = n % 256 ^ size := by
  induction size with
  | zero => simp [beBytes, beValue, Nat.mod_one]
  | succ size ih =>
    have hmod : n % 256 ^ (size + 1) = n % 256 ^ size + 256 ^ size * (n / 256 ^ size % 256) := by
      rw [Nat.pow_succ, Nat.mod_mul]
    rw [hmod, beBytes, beValue, length_beBytes, ih, UInt8.toNat_ofNat', Nat.mul_comm, Nat.add_comm]

variable {byte : UInt8} {bytes xs ys : List UInt8}

theorem beValue_lt (bytes : List UInt8) : beValue bytes < 256 ^ bytes.length := by
  induction bytes with
  | nil => decide
  | cons byte bytes ih =>
    have hbyte : byte.toNat + 1 ≤ 256 := byte.toNat_lt
    calc beValue (byte :: bytes) < byte.toNat * 256 ^ bytes.length + 256 ^ bytes.length := by
          rw [beValue]
          omega
      _ = (byte.toNat + 1) * 256 ^ bytes.length := (Nat.succ_mul ..).symm
      _ ≤ 256 * 256 ^ bytes.length := Nat.mul_le_mul_right _ hbyte
      _ = 256 ^ (byte :: bytes).length := by rw [length_cons, Nat.pow_succ, Nat.mul_comm]

theorem pow_le_beValue (h : byte ≠ 0) : 256 ^ bytes.length ≤ beValue (byte :: bytes) := by
  have hpos : 1 ≤ byte.toNat := Nat.pos_of_ne_zero fun hzero => h (UInt8.toNat_inj.mp hzero)
  exact Nat.le_trans (Nat.le_mul_of_pos_left _ hpos) (Nat.le_add_right _ _)

theorem beValue_replicate_append (k : Nat) (bytes : List UInt8) :
    beValue (replicate k 0 ++ bytes) = beValue bytes := by
  induction k with
  | zero => rfl
  | succ k ih =>
    rw [replicate_succ, cons_append, beValue, ih, UInt8.toNat_zero, Nat.zero_mul, Nat.zero_add]

theorem append_lt_append (hlength : xs.length = ys.length) (h : beValue xs < beValue ys)
    (s t : List UInt8) : xs ++ s < ys ++ t := by
  induction xs generalizing ys with
  | nil =>
    obtain rfl := length_eq_zero_iff.mp hlength.symm
    exact absurd h (Nat.lt_irrefl _)
  | cons x xs ih =>
    obtain ⟨y, ys, rfl⟩ := exists_cons_of_length_eq_add_one hlength.symm
    have hrest : xs.length = ys.length := Nat.succ.inj hlength
    rw [cons_append, cons_append, cons_lt_cons_iff]
    rw [beValue, beValue, hrest] at h
    rcases Nat.lt_trichotomy x.toNat y.toNat with hlt | heq | hgt
    · exact .inl hlt
    · obtain rfl := UInt8.toNat_inj.mp heq
      exact .inr ⟨rfl, ih hrest (by omega)⟩
    · have hle := Nat.mul_le_mul_right (256 ^ ys.length) hgt
      have hys := beValue_lt ys
      rw [Nat.succ_mul] at hle
      omega

end Loki.Foundation
