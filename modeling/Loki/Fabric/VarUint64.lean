import Loki.Foundation.BigEndian
import Loki.Foundation.Call

/-!
# Order-preserving numbers

`EncodeOrderPreservingVarUint64` and `DecodeOrderPreservingVarUint64` of
`common/ledger/util/util.go`, with `EncodeVarint` and `DecodeVarint` of the protobuf package.  A
number is written without its leading zero bytes, after a byte with the number of the others.
-/

namespace Loki.Fabric.VarUint64

open Loki.Foundation List

abbrev Bytes := List UInt8

def encodeVarint (x : UInt64) : Bytes :=
  if 127 < x.toNat then (0x80 ||| (x &&& 0x7F).toUInt8) :: encodeVarint (x >>> 7)
  else [x.toUInt8]
termination_by x.toNat
decreasing_by
  rw [UInt64.toNat_shiftRight, Nat.shiftRight_eq_div_pow]
  exact Nat.div_lt_self (by omega) (by decide)

/-- The rest of the loop of `DecodeVarint`, after `n` bytes. -/
def decodeVarintFrom (x : UInt64) (n shift : Nat) : Bytes → UInt64 × Nat
  | [] => (0, 0)
  | b :: buf =>
    if shift < 64 then
      let x := x ||| (b.toUInt64 &&& 0x7F) <<< shift.toUInt64
      if b &&& 0x80 = 0 then (x, n + 1) else decodeVarintFrom x (n + 1) (shift + 7) buf
    else (0, 0)

def decodeVarint (buf : Bytes) : UInt64 × Nat := decodeVarintFrom 0 0 0 buf

/-- `copy(dst[start:], src)`. -/
def copyAt (dst : Bytes) (start : Nat) (src : Bytes) : Outcome Bytes :=
  if start ≤ dst.length then
    .ok (dst.take start ++ src.take (dst.length - start) ++ dst.drop (start + src.length))
  else .error (.panic "slice bounds out of range")

/-- `bytes[low:high]`. -/
def slice (bytes : Bytes) (low high : Nat) : Outcome Bytes :=
  if low ≤ high ∧ high ≤ bytes.length then .ok ((bytes.take high).drop low)
  else .error (.panic "slice bounds out of range")

def encodeOrderPreservingVarUint64 (number : UInt64) : Outcome Bytes := do
  let bytes := beBytes 8 number.toNat
  let (startingIndex, size) := match bytes.findIdx? (· ≠ 0) with
    | some i => (i, 8 - i)
    | none => (0, 0)
  match encodeVarint size.toUInt64 with
  | [sizeByte] =>
    let rest ← slice bytes startingIndex bytes.length
    copyAt ((replicate (size + 1) 0).set 0 sizeByte) 1 rest
  | _ => .error (.panic (
      "[]sizeBytes should not be more than one byte because the max number it " ++
      s!"needs to hold is 8. size={size}"))

/-- The default case of `DecodeOrderPreservingVarUint64`, when the size is no error. -/
def decodeSized (bytes : Bytes) (size : Nat) : Outcome (UInt64 × Nat) := do
  let decodedBytes ← copyAt (replicate 8 0) (8 - size) (← slice bytes 1 (size + 1))
  .ok ((beValue decodedBytes).toUInt64, size + 1)

def decodeOrderPreservingVarUint64 (bytes : Bytes) : Outcome (UInt64 × Nat) :=
  let (s, numBytes) := decodeVarint bytes
  if numBytes ≠ 1 then
    .error (.error ("number of consumed bytes from DecodeVarint is invalid, expected 1, but got " ++
      toString numBytes))
  else if 8 < s then
    .error (.error s!"decoded size from DecodeVarint is invalid, expected <=8, but got {s}")
  else if s.toNat > (bytes.length : Int) - 1 then
    .error (.error (s!"decoded size ({s}) from DecodeVarint is more than available bytes " ++
      s!"({bytes.length - 1})"))
  else decodeSized bytes s.toNat

/-! ## The byte with the size -/

variable {size k start : Nat} {dst src tail : Bytes}

theorem encodeVarint_size (h : size ≤ 8) : encodeVarint size.toUInt64 = [size.toUInt8] := by
  have hsize : ∀ n ≤ 8, ¬ 127 < n.toUInt64.toNat ∧ n.toUInt64.toUInt8 = n.toUInt8 := by decide
  rw [encodeVarint, if_neg (hsize size h).1, (hsize size h).2]

theorem decodeVarint_size (h : size ≤ 8) (buf : Bytes) :
    decodeVarint (size.toUInt8 :: buf) = (size.toUInt64, 1) := by
  have hsize : ∀ n ≤ 8, n.toUInt8 &&& 0x80 = 0 ∧
      (0 : UInt64) ||| (n.toUInt8.toUInt64 &&& 0x7F) <<< (0 : Nat).toUInt64 = n.toUInt64 := by
    decide
  simp only [decodeVarint, decodeVarintFrom, (hsize size h).1, (hsize size h).2]
  rfl

theorem copyAt_of_fits (h : start + src.length = dst.length) :
    copyAt dst start src = .ok (dst.take start ++ src) := by
  have hsrc : src.take (dst.length - start) = src := take_of_length_le (by omega)
  rw [copyAt, if_pos (by omega), hsrc, drop_of_length_le (by omega), append_nil]

theorem slice_of_le {bytes : Bytes} {low high : Nat} (h : low ≤ high) (hle : high ≤ bytes.length) :
    slice bytes low high = .ok ((bytes.take high).drop low) :=
  if_pos ⟨h, hle⟩

theorem decodeSized_eq {bytes : Bytes} (hsize : size ≤ 8) (hlength : size + 1 ≤ bytes.length) :
    decodeSized bytes size =
      .ok ((beValue (replicate (8 - size) 0 ++ (bytes.take (size + 1)).drop 1)).toUInt64,
        size + 1) := by
  have hcopy : copyAt (replicate 8 0) (8 - size) ((bytes.take (size + 1)).drop 1) =
      .ok (replicate (8 - size) 0 ++ (bytes.take (size + 1)).drop 1) := by
    rw [copyAt_of_fits, take_replicate, Nat.min_eq_left (Nat.sub_le 8 size)]
    simp only [length_drop, length_take, length_replicate]
    omega
  exact bind_eq_ok.mpr ⟨_, slice_of_le (by omega) hlength, bind_eq_ok.mpr ⟨_, hcopy, rfl⟩⟩

/-! ## What is written -/

/-- The leading zero bytes of a number, and the bytes that are written. -/
structure Trimmed (number : UInt64) (k : Nat) (tail : Bytes) : Prop where
  bytes : beBytes 8 number.toNat = replicate k 0 ++ tail
  head : ∀ top ∈ tail.head?, top ≠ 0

namespace Trimmed

variable {number a b : UInt64} {k' : Nat} {tail' : Bytes}

theorem length (h : Trimmed number k tail) : k + tail.length = 8 := by
  have hlength := congrArg List.length h.bytes
  simpa using hlength.symm

theorem value (h : Trimmed number k tail) : beValue (replicate k 0 ++ tail) = number.toNat := by
  rw [← h.bytes, beValue_beBytes]
  exact Nat.mod_eq_of_lt number.toNat_lt

theorem exists_encode (number : UInt64) : ∃ k tail, Trimmed number k tail ∧
    encodeOrderPreservingVarUint64 number = .ok (tail.length.toUInt8 :: tail) := by
  have hlength := length_beBytes 8 number.toNat
  unfold encodeOrderPreservingVarUint64
  cases hfind : (beBytes 8 number.toNat).findIdx? (· ≠ 0) with
  | none =>
    have hzero : beBytes 8 number.toNat = replicate 8 0 := by
      refine eq_replicate_iff.mpr ⟨hlength, fun byte hmem => ?_⟩
      simpa using findIdx?_eq_none_iff.mp hfind byte hmem
    refine ⟨8, [], ⟨by rw [hzero, append_nil], nofun⟩, ?_⟩
    simp only [hfind, encodeVarint_size (Nat.zero_le 8)]
    rw [hzero]
    rfl
  | some k =>
    obtain ⟨hk, htop, hzero⟩ := findIdx?_eq_some_iff_getElem.mp hfind
    have hrest : ((beBytes 8 number.toNat).drop k).length = 8 - k := by rw [length_drop, hlength]
    have hzeros : (beBytes 8 number.toNat).take k = replicate k 0 := by
      refine eq_replicate_iff.mpr ⟨by rw [length_take]; omega, fun byte hmem => ?_⟩
      obtain ⟨j, hj, rfl⟩ := mem_take_iff_getElem.mp hmem
      simpa using hzero j (by omega)
    refine ⟨k, (beBytes 8 number.toNat).drop k, ⟨?_, fun top hmem => ?_⟩, ?_⟩
    · rw [← hzeros, take_append_drop]
    · rw [head?_drop, getElem?_eq_getElem hk] at hmem
      obtain rfl := Option.some.inj hmem
      simpa using htop
    · simp only [hfind, encodeVarint_size (Nat.sub_le 8 k), hrest]
      refine bind_eq_ok.mpr ⟨_, slice_of_le (Nat.le_of_lt hk) (Nat.le_refl _), ?_⟩
      rw [take_length]
      refine (copyAt_of_fits ?_).trans ?_
      · simp only [length_set, length_replicate, hrest]
        omega
      · rfl

theorem decode (h : Trimmed number k tail) (suffix : Bytes) :
    decodeOrderPreservingVarUint64 (tail.length.toUInt8 :: tail ++ suffix) =
      .ok (number, tail.length + 1) := by
  have hlength := h.length
  have hsize : ∀ n ≤ 8, n.toUInt64 ≤ 8 ∧ n.toUInt64.toNat = n := by decide
  obtain ⟨hle, htoNat⟩ := hsize tail.length (by omega)
  unfold decodeOrderPreservingVarUint64
  rw [cons_append, decodeVarint_size (by omega)]
  simp only [htoNat, UInt64.not_lt.mpr hle, length_cons, length_append]
  rw [if_neg (by decide), if_neg id, if_neg (by omega), decodeSized_eq (by omega) (by simp)]
  have hzeros : 8 - tail.length = k := by omega
  simp [hzeros, h.value]

theorem lt (ha : Trimmed a k tail) (hb : Trimmed b k' tail') (hlt : a < b) (s t : Bytes) :
    tail.length.toUInt8 :: tail ++ s < tail'.length.toUInt8 :: tail' ++ t := by
  have hvalue : beValue tail < beValue tail' := by
    rw [← beValue_replicate_append k, ← beValue_replicate_append k' tail', ha.value, hb.value]
    exact hlt
  have hla := ha.length
  have hlb := hb.length
  rw [cons_append, cons_append, cons_lt_cons_iff]
  rcases Nat.lt_trichotomy tail.length tail'.length with hlen | hlen | hlen
  · left
    have hsize : ∀ m ≤ 8, ∀ n ≤ 8, m < n → m.toUInt8 < n.toUInt8 := by decide
    exact hsize _ (by omega) _ (by omega) hlen
  · exact .inr ⟨by rw [hlen], append_lt_append hlen hvalue s t⟩
  · -- the longer one starts with a byte that is not zero, so it is the larger number
    cases tail with
    | nil => cases hlen
    | cons top rest =>
      have hpow : 256 ^ tail'.length ≤ 256 ^ rest.length :=
        Nat.pow_le_pow_right (by decide) (Nat.le_of_lt_succ hlen)
      have htop : 256 ^ rest.length ≤ beValue (top :: rest) := pow_le_beValue (ha.head top rfl)
      have hbound := beValue_lt tail'
      omega

end Trimmed

theorem decode_ne_panic (bytes : Bytes) (message : String) :
    decodeOrderPreservingVarUint64 bytes ≠ .error (.panic message) := by
  unfold decodeOrderPreservingVarUint64
  dsimp only
  split
  · simp
  split
  · simp
  split
  · simp
  next hsize hlength =>
    have hle : (decodeVarint bytes).1.toNat ≤ 8 := Nat.not_lt.mp hsize
    rw [decodeSized_eq hle (by omega)]
    simp

/-- Every number is read back before any suffix, the encodings are ordered as the numbers are
whatever follows them, and no byte string makes the decoder read out of bounds. -/
theorem varUint64_orderPreserving :
    (∀ number suffix, ∃ encoded, encodeOrderPreservingVarUint64 number = .ok encoded ∧
      decodeOrderPreservingVarUint64 (encoded ++ suffix) = .ok (number, encoded.length)) ∧
    (∀ a b, a < b → ∀ s t, ∃ encodedA encodedB,
      encodeOrderPreservingVarUint64 a = .ok encodedA ∧
      encodeOrderPreservingVarUint64 b = .ok encodedB ∧ encodedA ++ s < encodedB ++ t) ∧
    ∀ bytes message, decodeOrderPreservingVarUint64 bytes ≠ .error (.panic message) := by
  refine ⟨fun number suffix => ?_, fun a b hlt s t => ?_, decode_ne_panic⟩
  · obtain ⟨k, tail, htrimmed, hencode⟩ := Trimmed.exists_encode number
    exact ⟨_, hencode, htrimmed.decode suffix⟩
  · obtain ⟨k, tail, htrimmed, hencode⟩ := Trimmed.exists_encode a
    obtain ⟨k', tail', htrimmed', hencode'⟩ := Trimmed.exists_encode b
    exact ⟨_, _, hencode, hencode', htrimmed.lt htrimmed' hlt s t⟩

/-! ## Heights -/

/-- `Height.ToBytes` of `version.go`. -/
def heightToBytes (blockNum txNum : UInt64) : Outcome Bytes := do
  let blockNumBytes ← encodeOrderPreservingVarUint64 blockNum
  let txNumBytes ← encodeOrderPreservingVarUint64 txNum
  return blockNumBytes ++ txNumBytes

def newHeightFromBytes (b : Bytes) : Outcome (UInt64 × UInt64 × Nat) := do
  let (blockNum, n1) ← decodeOrderPreservingVarUint64 b
  let (txNum, n2) ← decodeOrderPreservingVarUint64 (← slice b n1 b.length)
  return (blockNum, txNum, n1 + n2)

variable {a b : UInt64} {x y : Bytes}

theorem heightToBytes_eq (ha : encodeOrderPreservingVarUint64 a = .ok x)
    (hb : encodeOrderPreservingVarUint64 b = .ok y) : heightToBytes a b = .ok (x ++ y) :=
  bind_eq_ok.mpr ⟨_, ha, bind_eq_ok.mpr ⟨_, hb, rfl⟩⟩

/-- Heights are read back before any suffix, and their bytes are ordered by the block and then by
the transaction, whatever follows them. -/
theorem height_orderPreserving :
    (∀ blockNum txNum suffix, ∃ encoded, heightToBytes blockNum txNum = .ok encoded ∧
      newHeightFromBytes (encoded ++ suffix) = .ok (blockNum, txNum, encoded.length)) ∧
    ∀ a b a' b', a < a' ∨ a = a' ∧ b < b' → ∀ s t, ∃ encoded encoded',
      heightToBytes a b = .ok encoded ∧ heightToBytes a' b' = .ok encoded' ∧
        encoded ++ s < encoded' ++ t := by
  refine ⟨fun a b suffix => ?_, fun a b a' b' hlt s t => ?_⟩
  · obtain ⟨_, tail, ha, hx⟩ := Trimmed.exists_encode a
    obtain ⟨_, tail', hb, hy⟩ := Trimmed.exists_encode b
    refine ⟨_, heightToBytes_eq hx hy, ?_⟩
    rw [append_assoc]
    refine bind_eq_ok.mpr ⟨_, ha.decode _, bind_eq_ok.mpr
      ⟨_, slice_of_le (by simp) le_rfl, bind_eq_ok.mpr ⟨(b, tail'.length + 1), ?_, ?_⟩⟩⟩
    · rw [take_length, ← length_cons, drop_left]
      exact hb.decode suffix
    · simp [Nat.add_right_comm, ← Nat.add_assoc]
  · obtain ⟨_, _, ha, hx⟩ := Trimmed.exists_encode a
    obtain ⟨_, _, ha', hx'⟩ := Trimmed.exists_encode a'
    obtain ⟨_, _, hb, hy⟩ := Trimmed.exists_encode b
    obtain ⟨_, _, hb', hy'⟩ := Trimmed.exists_encode b'
    refine ⟨_, _, heightToBytes_eq hx hy, heightToBytes_eq hx' hy', ?_⟩
    rw [append_assoc, append_assoc]
    rcases hlt with hlt | ⟨rfl, hlt⟩
    · exact ha.lt ha' hlt _ _
    · rw [Except.ok.inj (hx.symm.trans hx')]
      exact append_left_lt (hb.lt hb' hlt _ _)

end Loki.Fabric.VarUint64
