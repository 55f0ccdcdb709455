import Loki.Fisco.Codec.Scale

/-!
# Values of the ABI types and their encoding

A value carries its type, so that an array has as many elements as its type says and a tuple
one value for each component.  `AbiValue.encode` is what the operators `<<` of
`bcos-codec/scale/ScaleEncoderStream.h` write for it.
-/

namespace Loki.Fisco.Scale

open Loki.Foundation

/-- An integer takes `last + 1` bytes. -/
inductive AbiType where
  | integer (signed : Bool) (last : Fin 32)
  | bool
  | string
  | bytes
  | array (elem : AbiType) (size : Nat)
  | vector (elem : AbiType)
  | tuple (components : List AbiType)

/-- Sizes of collections are of type `size_t`. -/
inductive AbiValue : AbiType → Type where
  | integer (signed : Bool) (last : Fin 32) (n : Int) : AbiValue (.integer signed last)
  | bool (b : Bool) : AbiValue .bool
  | string (data : Bytes) (h : data.length < 2 ^ 64) : AbiValue .string
  | bytes (data : Bytes) (h : data.length < 2 ^ 64) : AbiValue .bytes
  | array {elem : AbiType} {size : Nat} (elems : Fin size → AbiValue elem) :
      AbiValue (.array elem size)
  | vector {elem : AbiType} (size : Nat) (h : size < 2 ^ 64) (elems : Fin size → AbiValue elem) :
      AbiValue (.vector elem)
  | nil : AbiValue (.tuple [])
  | cons {head : AbiType} {rest : List AbiType} (v : AbiValue head) (vs : AbiValue (.tuple rest)) :
      AbiValue (.tuple (head :: rest))

/-- `encodeInteger`, or big-endian bytes for `u256` and `s256`. -/
def encodeInteger (size : Nat) (n : Int) : Bytes :=
  let bytes := leBytes size (n % 2 ^ (8 * size)).toNat
  if size = 32 then bytes.reverse else bytes

def encodeSize (size : Nat) : Bytes := (encodeCompactInteger size).toOption.getD []

namespace AbiValue

def encode : {t : AbiType} → AbiValue t → Bytes
  | _, integer _ last n => encodeInteger (last.val + 1) n
  | _, bool b => [if b then 1 else 0]
  | _, string data _ => encodeSize data.length ++ data
  | _, bytes data _ => encodeSize data.length ++ data
  | _, array elems => (List.ofFn fun i => (elems i).encode).flatten
  | _, vector size _ elems => encodeSize size ++ (List.ofFn fun i => (elems i).encode).flatten
  | _, nil => []
  | _, cons v vs => v.encode ++ vs.encode

/-- Every size that is written is below the size class of the big integers, and every array has
less than `2 ^ 32` elements. -/
def Small : {t : AbiType} → AbiValue t → Prop
  | _, integer .. => True
  | _, bool _ => True
  | _, string data _ => data.length < kMinBigInteger
  | _, bytes data _ => data.length < kMinBigInteger
  | _, @array _ size elems => size < 2 ^ 32 ∧ ∀ i, (elems i).Small
  | _, vector size _ elems => size < kMinBigInteger ∧ ∀ i, (elems i).Small
  | _, nil => True
  | _, cons v vs => v.Small ∧ vs.Small

def Fits {t : AbiType} (v : AbiValue t) : Prop := v.Small ∧ v.encode.length < 2 ^ 32

end AbiValue

theorem encodeSize_of_ok {n : Nat} {bytes} (h : encodeCompactInteger n = .ok bytes) :
    encodeSize n = bytes := by
  simp [encodeSize, h, Except.toOption]

theorem lt_two_pow_of_lt {n} (h : n < 2 ^ 64) : n < 2 ^ 536 := by
  generalize hk : 536 = k
  exact h.trans_le (Nat.pow_le_pow_right (by decide) (by omega))

theorem encodeSize_of_bigInteger {n} (h : kMinBigInteger ≤ n) (h' : n < 2 ^ 64) :
    encodeSize n = UInt8.ofNat ((countBytes n - 4) * 4 + 3) :: leBytes (countBytes n) n := by
  exact encodeSize_of_ok (encodeCompactInteger_of_bigInteger h (lt_two_pow_of_lt h'))

@[simp] theorem length_encodeInteger (size : Nat) (n : Int) :
    (encodeInteger size n).length = size := by
  simp only [encodeInteger]
  split_ifs <;> simp

end Loki.Fisco.Scale
