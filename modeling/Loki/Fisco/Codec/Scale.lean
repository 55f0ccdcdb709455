import Loki.Foundation.LittleEndian

/-!
# The SCALE codec

Compact integers of `bcos-codec/scale/ScaleEncoderStream.cpp` and `ScaleDecoderStream.cpp`, and
what `ScaleEncoderStream` writes for the values of the ABI types.  A compact integer has one of
four forms, told apart by the two low bits of its first byte.
-/

namespace Loki.Fisco.Scale

open Loki.Foundation UInt8 List Nat

abbrev Bytes := List UInt8

/-! ## Compact integers -/

def kMinUint16 : Nat := 2 ^ 6

def kMinUint32 : Nat := 2 ^ 14

def kMinBigInteger : Nat := 2 ^ 30

def encodeFirstCategory (value : Nat) : Bytes := [ofNat (value * 4)]

def encodeSecondCategory (value : Nat) : Bytes :=
  let v := (value * 4 + 1) % 2 ^ 16
  [ofNat (v % 256), ofNat (v / 256 % 256)]

def encodeThirdCategory (value : Nat) : Bytes := leBytes 4 ((value * 4 + 2) % 2 ^ 32)

def encodeCompactInteger (value : Int) : Except String Bytes :=
  if value < 0 then
    .error "encodeCompactInteger exception for NEGATIVE_COMPACT_INTEGER"
  else if value.toNat < kMinUint16 then .ok (encodeFirstCategory value.toNat)
  else if value.toNat < kMinUint32 then .ok (encodeSecondCategory value.toNat)
  else if value.toNat < kMinBigInteger then .ok (encodeThirdCategory value.toNat)
  else
    let bigIntLength := countBytes value.toNat
    if bigIntLength > 67 then
      .error "encodeCompactInteger exception for COMPACT_INTEGER_TOO_BIG"
    else
      -- the header has the number of bytes, less four, in its six high bits
      .ok (ofNat ((bigIntLength - 4) * 4 + 3) :: leBytes bigIntLength value.toNat)

/-- `decodeCompactInteger` on what the stream still has: the number, and what is left. -/
def decodeCompactInteger : Bytes → Except String (Nat × Bytes)
  | [] => .error "nextByte exception for NOT_ENOUGH_DATA"
  | first :: stream =>
    match first.toNat % 4 with
    | 0 => .ok (first.toNat / 4, stream)
    | 1 =>
      match stream with
      | [] => .error "nextByte exception for NOT_ENOUGH_DATA"
      | second :: stream => .ok ((first.toNat / 4 * 4 + second.toNat * 256) / 4, stream)
    | 2 =>
      if stream.length < 3 then
        .error "decodeOptionalBool exception for not enough data"
      else
        .ok (accumulate (2 ^ 64) 256 first.toNat (stream.take 3) / 4, stream.drop 3)
    | _ =>
      let bytesCount := first.toNat / 4 + 4
      if stream.length < bytesCount then
        .error "decodeCompactInteger exception for not enough data"
      else .ok (accumulate 0 1 0 (stream.take bytesCount), stream.drop bytesCount)

variable {n : Nat}

theorem encodeCompactInteger_of_lt_uint16 (h : n < kMinUint16) :
    encodeCompactInteger n = .ok (encodeFirstCategory n) := by
  simp [encodeCompactInteger, h]

theorem encodeCompactInteger_of_lt_uint32 (h : kMinUint16 ≤ n) (h' : n < kMinUint32) :
    encodeCompactInteger n = .ok (encodeSecondCategory n) := by
  simp [encodeCompactInteger, h', not_lt.mpr h]

theorem encodeCompactInteger_of_lt_bigInteger (h : kMinUint32 ≤ n) (h' : n < kMinBigInteger) :
    encodeCompactInteger n = .ok (encodeThirdCategory n) := by
  have h16 : ¬ n < kMinUint16 := by
    simp only [kMinUint16, kMinUint32] at *
    omega
  simp [encodeCompactInteger, h', not_lt.mpr h, h16]

theorem two_pow_eq (k : Nat) : 2 ^ (8 * k) = 256 ^ k := by rw [Nat.pow_mul]

theorem countBytes_bounds (h : kMinBigInteger ≤ n) (h' : n < 2 ^ 536) :
    4 ≤ countBytes n ∧ countBytes n ≤ 67 := by
  rw [show 536 = 8 * 67 from rfl, two_pow_eq] at h'
  exact ⟨lt_countBytes_of_le (le_trans (by decide) h), (countBytes_le_iff n 66).mpr h'⟩

theorem encodeCompactInteger_of_bigInteger (h : kMinBigInteger ≤ n) (h' : n < 2 ^ 536) :
    encodeCompactInteger n =
      .ok (ofNat ((countBytes n - 4) * 4 + 3) :: leBytes (countBytes n) n) := by
  have h67 := (countBytes_bounds h h').2
  have h16 : ¬ n < kMinUint16 := by
    simp only [kMinUint16, kMinBigInteger] at *
    omega
  have h32 : ¬ n < kMinUint32 := by
    simp only [kMinUint32, kMinBigInteger] at *
    omega
  simp [encodeCompactInteger, not_lt.mpr h, h16, h32, not_lt.mpr h67]

/-! ## The bytes of each form -/

theorem decode_firstCategory (h : n < kMinUint16) (suffix : Bytes) :
    decodeCompactInteger (encodeFirstCategory n ++ suffix) = .ok (n, suffix) := by
  have hbyte : (ofNat (n * 4)).toNat = n * 4 := by
    simp only [kMinUint16] at h
    rw [toNat_ofNat']
    omega
  simp only [encodeFirstCategory, singleton_append, decodeCompactInteger, hbyte, mul_mod_left]
  rw [Nat.mul_div_cancel n (by decide)]

theorem decode_secondCategory (h : n < kMinUint32) (suffix : Bytes) :
    decodeCompactInteger (encodeSecondCategory n ++ suffix) = .ok (n, suffix) := by
  simp only [kMinUint32] at h
  have hminor : (ofNat ((n * 4 + 1) % 2 ^ 16 % 256)).toNat = (n * 4 + 1) % 256 := by
    rw [toNat_ofNat']
    omega
  have hmajor : (ofNat ((n * 4 + 1) % 2 ^ 16 / 256 % 256)).toNat = (n * 4 + 1) / 256 := by
    rw [toNat_ofNat']
    omega
  have hflag : (n * 4 + 1) % 256 % 4 = 1 := by omega
  simp only [encodeSecondCategory, cons_append, nil_append, decodeCompactInteger, hminor, hmajor,
    hflag]
  congr 2
  omega

theorem decode_thirdCategory (h : n < kMinBigInteger) (suffix : Bytes) :
    decodeCompactInteger (encodeThirdCategory n ++ suffix) = .ok (n, suffix) := by
  simp only [kMinBigInteger] at h
  rw [encodeThirdCategory, Nat.mod_eq_of_lt (by omega)]
  have hbyte : (ofNat (n * 4 + 2)).toNat = (n * 4 + 2) % 256 := toNat_ofNat'
  have hflag : (n * 4 + 2) % 256 % 4 = 2 := by omega
  have hvalue : leValue (leBytes 3 ((n * 4 + 2) / 256)) = (n * 4 + 2) / 256 :=
    leValue_leBytes_of_lt (by omega)
  have hlength := length_leBytes 3 ((n * 4 + 2) / 256)
  rw [leBytes, cons_append]
  simp only [decodeCompactInteger, hbyte, hflag, length_append, hlength]
  rw [if_neg (by omega), take_left' hlength, drop_left' hlength, accumulate_of_lt (by omega),
    hvalue]
  congr 2
  omega

theorem decode_bigInteger (h : kMinBigInteger ≤ n) (h' : n < 2 ^ 536) (suffix : Bytes) :
    decodeCompactInteger
        (ofNat ((countBytes n - 4) * 4 + 3) :: leBytes (countBytes n) n ++ suffix) =
      .ok (n, suffix) := by
  obtain ⟨_, _⟩ := countBytes_bounds h h'
  have hbyte : (ofNat ((countBytes n - 4) * 4 + 3)).toNat = (countBytes n - 4) * 4 + 3 := by
    rw [toNat_ofNat']
    omega
  have hflag : ((countBytes n - 4) * 4 + 3) % 4 = 3 := by omega
  have hcount : ((countBytes n - 4) * 4 + 3) / 4 + 4 = countBytes n := by omega
  have hlength := length_leBytes (countBytes n) n
  rw [cons_append]
  simp only [decodeCompactInteger, hbyte, hflag, hcount, length_append, hlength]
  rw [if_neg (by omega), take_left' hlength, drop_left' hlength, accumulate_zero, zero_add,
    leValue_leBytes_of_lt (lt_pow_countBytes n)]

theorem decode_encodeCompactInteger (h : n < 2 ^ 536) :
    ∃ bytes, encodeCompactInteger n = .ok bytes ∧
      ∀ suffix, decodeCompactInteger (bytes ++ suffix) = .ok (n, suffix) := by
  by_cases h16 : n < kMinUint16
  · exact ⟨_, encodeCompactInteger_of_lt_uint16 h16, decode_firstCategory h16⟩
  · by_cases h32 : n < kMinUint32
    · exact ⟨_, encodeCompactInteger_of_lt_uint32 (by omega) h32, decode_secondCategory h32⟩
    · by_cases hbig : n < kMinBigInteger
      · exact ⟨_, encodeCompactInteger_of_lt_bigInteger (by omega) hbig, decode_thirdCategory hbig⟩
      · exact ⟨_, encodeCompactInteger_of_bigInteger (by omega) h, decode_bigInteger (by omega) h⟩

end Loki.Fisco.Scale
