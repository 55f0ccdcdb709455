import Loki.Fisco.Executor.ScaleUtils
import Mathlib.Data.List.OfFn

/-!
# When the length of a parameter is exact

The length that `scaleEncodingLength` computes for a value of an ABI type, against the length of
its encoding.  A size of `2 ^ 30` or more has a prefix one byte longer than is counted, and what
follows it is then read one byte too early.
-/

namespace Loki.Fisco.Scale

open Loki.Foundation List AbiType AbiValue Option Nat

/-! ## Exact lengths -/

variable {length size : Nat} {data : Bytes} {elem : AbiType}

theorem measureAll_lt {measures} {startPos result : Nat}
    (hlength : length < 2 ^ 32) (h : measureAll measures startPos length = some result) :
    result < 2 ^ 32 := by
  induction measures generalizing startPos length with
  | nil =>
    cases h
    exact hlength
  | cons _ _ ih =>
    rw [measureAll] at h
    split at h
    · cases h
    · exact ih (mod_lt _ (by decide)) h

theorem measureAll_eq_map (measures : List (Nat → Option Nat)) (startPos : Nat)
    (hlength : length < 2 ^ 32) :
    measureAll measures startPos length =
      (measureAll measures startPos 0).map fun rest => (length + rest) % 2 ^ 32 := by
  induction measures generalizing startPos length with
  | nil =>
    simp [measureAll]
    omega
  | cons measure _ ih =>
    cases hvalue : measure startPos with
    | none => simp only [measureAll, hvalue, map_none]
    | some value =>
      simp only [measureAll, hvalue]
      rw [ih _ (mod_lt _ (by decide)), ih _ (mod_lt (0 + value) (by decide)), Option.map_map]
      congr 1
      funext rest
      simp only [Function.comp_apply]
      omega

theorem AbiType.encodingLength_cons (head : AbiType) (rest : List AbiType) (encodedBytes : Bytes)
    (startPos : Nat) :
    (tuple (head :: rest)).encodingLength encodedBytes startPos =
      (head.encodingLength encodedBytes startPos).bind fun value =>
        ((tuple rest).encodingLength encodedBytes (startPos + value)).map fun length =>
          (value + length) % 2 ^ 32 := by
  rw [encodingLength_tuple, map_cons]
  cases hvalue : head.encodingLength encodedBytes startPos with
  | none => simp only [measureAll, hvalue, bind_none]
  | some =>
    simp only [measureAll, hvalue, bind_some, encodingLength_tuple]
    rw [measureAll_eq_map _ _ (mod_lt _ (by decide))]
    congr 1
    funext length
    omega

def Exact {t : AbiType} (v : AbiValue t) : Prop :=
  ∀ before suffix : Bytes,
    scaleEncodingLength t.parameter (before ++ (v.encode ++ suffix)) before.length =
      some v.encode.length

/-- The length that is computed where the encoding of `v` starts. -/
def measured {t : AbiType} (v : AbiValue t) (before suffix : Bytes) : Option Nat :=
  t.encodingLength (before ++ (v.encode ++ suffix)) before.length

def Short {t : AbiType} (v : AbiValue t) : Prop :=
  ∀ before suffix length, measured v before suffix = some length → length < v.encode.length

theorem Short.not_exact {t} {v : AbiValue t} (h : Short v) : ¬ Exact v := by
  intro hexact
  exact lt_irrefl _ (h [] [] _ (hexact [] []))

section Extends

variable {s t : AbiType} {u : AbiValue s} {v : AbiValue t}

/-- The encoding of `v` is that of `u` after a front that is counted in full. -/
def Extends (u : AbiValue s) (v : AbiValue t) : Prop :=
  ∃ front, v.encode = front ++ u.encode ∧ ∀ before suffix, measured v before suffix =
    (measured u (before ++ front) suffix).map fun length => (front.length + length) % 2 ^ 32

theorem Extends.exact (h : Extends u v) (hu : Exact u) (hlength : v.encode.length < 2 ^ 32) :
    Exact v := by
  obtain ⟨front, hencode, hmeasured⟩ := h
  intro before suffix
  refine (hmeasured before suffix).trans ?_
  rw [hencode, length_append] at hlength ⊢
  rw [show measured u _ _ = _ from hu _ _, map_some, mod_eq_of_lt hlength]

theorem Extends.short (h : Extends u v) (hu : Short u) : Short v := by
  obtain ⟨front, hencode, hmeasured⟩ := h
  intro before suffix _ heq
  rw [hmeasured] at heq
  obtain ⟨value, hvalue, rfl⟩ := map_eq_some_iff.mp heq
  have hlt := hu _ _ value hvalue
  rw [hencode, length_append]
  omega

theorem Exact.extends_cons {rest} (hv : Exact v) (vs : AbiValue (.tuple rest)) :
    Extends vs (v.cons vs) := by
  refine ⟨v.encode, rfl, fun before suffix => ?_⟩
  have hfirst := hv before (vs.encode ++ suffix)
  rw [measured, encodingLength_cons, encode, append_assoc,
    show t.encodingLength _ _ = _ from hfirst, bind_some, measured, append_assoc, length_append]

end Extends

theorem decodeAt_encodeSize_of_lt (before suffix : Bytes) {n} (h : n < kMinBigInteger) :
    decodeCompactIntegerAt (before ++ (encodeSize n ++ suffix)) before.length = some n := by
  simp only [kMinBigInteger] at h
  rw [decodeAt_encodeSize before suffix (by omega), mod_eq_of_lt (by omega)]

/-! ## Elements as components -/

/-- The elements of an array, as a tuple. -/
def toTuple : {size : Nat} → (Fin size → AbiValue elem) → AbiValue (.tuple (replicate size elem))
  | 0, _ => .nil
  | _ + 1, elems => .cons (elems 0) (toTuple fun i => elems i.succ)

theorem encode_toTuple (elems : Fin size → AbiValue elem) :
    (toTuple elems).encode = (ofFn fun i => (elems i).encode).flatten := by
  induction size with
  | zero => rfl
  | succ _ ih => rw [toTuple, encode, ih, ofFn_succ, flatten_cons]

theorem exists_toTuple (vs : AbiValue (.tuple (replicate size elem))) :
    ∃ elems, toTuple elems = vs := by
  induction size with
  | zero =>
    cases vs
    exact ⟨fun i => i.elim0, rfl⟩
  | succ _ ih =>
    cases vs with
    | cons v vs =>
      obtain ⟨elems, rfl⟩ := ih vs
      exact ⟨Fin.cons v elems, rfl⟩

section Elements

variable {elems : Fin size → AbiValue elem} {encodedBytes : Bytes} {startPos : Nat}

theorem encode_array : (array elems).encode = (toTuple elems).encode := (encode_toTuple elems).symm

theorem encode_vector (hsize : size < 2 ^ 64) :
    (vector size hsize elems).encode = encodeSize size ++ (toTuple elems).encode := by
  rw [encode_toTuple]
  rfl

theorem encodingLength_array_eq (h : size < 2 ^ 32) :
    (AbiType.array elem size).encodingLength encodedBytes startPos =
      (tuple (replicate size elem)).encodingLength encodedBytes startPos := by
  rw [encodingLength_array, if_neg (by omega), mod_eq_of_lt h, encodingLength_tuple, map_replicate]

theorem encodingLength_vector_eq (h : size < 2 ^ 32)
    (hsize : decodeCompactIntegerAt encodedBytes startPos = some size) :
    (AbiType.vector elem).encodingLength encodedBytes startPos =
      ((tuple (replicate size elem)).encodingLength encodedBytes (startPos + compactLen size)).map
        fun length => (compactLen size + length) % 2 ^ 32 := by
  have hle := compactLen_le h
  rw [encodingLength_vector, hsize, bind_some, measureAll_eq_map _ _ (by omega),
    encodingLength_tuple, map_replicate]

theorem exact_toTuple (helems : ∀ i, (elems i).encode.length < 2 ^ 32 → Exact (elems i))
    (hlength : (toTuple elems).encode.length < 2 ^ 32) : Exact (toTuple elems) := by
  induction size with
  | zero => exact fun _ _ => encodingLength_tuple []
  | succ _ ih =>
    have hsum := hlength
    rw [toTuple, encode, length_append] at hsum
    exact ((helems 0 (by omega)).extends_cons _).exact
      (ih (fun i => helems i.succ) (by omega)) hlength

theorem extends_vector (hsize : size < kMinBigInteger) (hsize') :
    Extends (toTuple elems) (.vector size hsize' elems) := by
  refine ⟨encodeSize size, encode_vector hsize', fun before suffix => ?_⟩
  rw [measured, encode_vector, append_assoc, encodingLength_vector_eq (hsize.trans (by decide))
    (decodeAt_encodeSize_of_lt _ _ hsize), measured, append_assoc, length_append,
    length_encodeSize hsize]

theorem measured_array (h : size < 2 ^ 32) :
    measured (.array elems) = measured (toTuple elems) := by
  funext before suffix
  rw [measured, encode_array, encodingLength_array_eq h, measured]

end Elements

section Collections

variable {t : AbiType} {v : AbiValue t} {data : Bytes}

/-- `v` is written as its size and its data. -/
structure Collection (v : AbiValue t) (data : Bytes) : Prop where
  size_lt : data.length < 2 ^ 64
  encode_eq : v.encode = encodeSize data.length ++ data
  encodingLength_eq : ∀ encodedBytes startPos, t.encodingLength encodedBytes startPos =
    (decodeCompactIntegerAt encodedBytes startPos).map fun size => size + compactLen size

theorem collection_string (h : data.length < 2 ^ 64) : Collection (.string data h) data :=
  ⟨h, rfl, fun _ _ => encodingLength_counted (.inl rfl)⟩

theorem collection_bytes (h : data.length < 2 ^ 64) : Collection (.bytes data h) data :=
  ⟨h, rfl, fun _ _ => encodingLength_counted (.inr rfl)⟩

variable (h : Collection v data)

include h

theorem Collection.measured_eq (before suffix : Bytes) : measured v before suffix =
    some (data.length % 2 ^ 32 + compactLen (data.length % 2 ^ 32)) := by
  rw [measured, h.encodingLength_eq, h.encode_eq, append_assoc,
    decodeAt_encodeSize before (data ++ suffix) h.size_lt]
  rfl

theorem Collection.short (hbig : kMinBigInteger ≤ data.length) : Short v := by
  intro before suffix _ heq
  have hlt := compactLen_lt_length_encodeSize hbig h.size_lt
  rw [h.measured_eq] at heq
  cases heq
  rw [h.encode_eq, length_append]
  omega

theorem Collection.exact_iff : Exact v ↔ data.length < kMinBigInteger := by
  constructor
  · intro hexact
    by_contra hbig
    exact (h.short (not_lt.mp hbig)).not_exact hexact
  · intro hbig before suffix
    have hmod : data.length % 2 ^ 32 = data.length := by
      simp only [kMinBigInteger] at hbig
      omega
    refine (h.measured_eq before suffix).trans ?_
    rw [hmod, h.encode_eq, length_append, length_encodeSize hbig, add_comm]

theorem Collection.short_of_le (hlength : 2 ^ 32 ≤ v.encode.length) : Short v := by
  apply h.short
  by_contra hsmall
  simp only [kMinBigInteger] at hsmall
  have hle := compactLen_le (show data.length < 2 ^ 32 by omega)
  rw [h.encode_eq, length_append, length_encodeSize (by simp only [kMinBigInteger]; omega)]
    at hlength
  omega

end Collections

theorem exact_of_fits {t} (v : AbiValue t) (h : v.Fits) : Exact v := by
  obtain ⟨hsmall, hlength⟩ := h
  induction v with
  | integer signed last =>
    intro before suffix
    rw [encode, length_encodeInteger]
    exact encodingLength_integer signed last
  | bool => exact fun before suffix => encodingLength_bool
  | string _ hdata => exact (collection_string hdata).exact_iff.mpr hsmall
  | bytes _ hdata => exact (collection_bytes hdata).exact_iff.mpr hsmall
  | array elems ih =>
    intro before suffix
    rw [encode_array] at hlength
    refine (congrFun₂ (measured_array hsmall.1) before suffix).trans ?_
    rw [encode_array]
    exact exact_toTuple (fun i => ih i (hsmall.2 i)) hlength before suffix
  | vector _ _ elems ih =>
    refine (extends_vector hsmall.1 _).exact (exact_toTuple (fun i => ih i (hsmall.2 i)) ?_) hlength
    rw [encode_vector, length_append] at hlength
    omega
  | nil => exact fun _ _ => encodingLength_tuple []
  | cons v vs ihv ihvs =>
    have hsum : v.encode.length + vs.encode.length < 2 ^ 32 := by simpa [encode] using hlength
    exact ((ihv hsmall.1 (by omega)).extends_cons vs).exact (ihvs hsmall.2 (by omega)) hlength

/-! ## Types whose values are all measured exactly -/

theorem short_of_le {t} (v : AbiValue t) (h : 2 ^ 32 ≤ v.encode.length) : Short v := by
  cases v with
  | integer =>
    rw [encode, length_encodeInteger] at h
    omega
  | bool | nil => simp [encode] at h
  | string _ hdata => exact (collection_string hdata).short_of_le h
  | bytes _ hdata => exact (collection_bytes hdata).short_of_le h
  | @array elem size =>
    intro before suffix length heq
    rw [measured, encodingLength_array] at heq
    split_ifs at heq
    exact (measureAll_lt (by decide) heq).trans_le h
  | vector size hsize =>
    intro before suffix length heq
    rw [measured, encodingLength_vector, encode_vector, append_assoc,
      decodeAt_encodeSize before _ hsize, bind_some] at heq
    have hle := compactLen_le (mod_lt size (show 0 < 2 ^ 32 by decide))
    exact (measureAll_lt (by omega) heq).trans_le h
  | @cons =>
    intro _ _ _ heq
    rw [measured, encodingLength_tuple] at heq
    exact (measureAll_lt (by decide) heq).trans_le h

/-- Every array has less than `2 ^ 32` elements. -/
inductive SizesFit : AbiType → Prop where
  | integer (signed : Bool) (last : Fin 32) : SizesFit (.integer signed last)
  | bool : SizesFit .bool
  | string : SizesFit .string
  | bytes : SizesFit .bytes
  | array {elem : AbiType} {size : Nat} (h : size < 2 ^ 32) (helem : SizesFit elem) :
      SizesFit (.array elem size)
  | vector {elem : AbiType} (helem : SizesFit elem) : SizesFit (.vector elem)
  | nil : SizesFit (.tuple [])
  | cons {head : AbiType} {rest : List AbiType} (hhead : SizesFit head)
      (hrest : SizesFit (.tuple rest)) : SizesFit (.tuple (head :: rest))

theorem SizesFit.exists_small {t} (h : SizesFit t) : ∃ v : AbiValue t, v.Small := by
  induction h with
  | integer signed last => exact ⟨.integer signed last 0, trivial⟩
  | bool => exact ⟨.bool false, trivial⟩
  | string => exact ⟨.string [] (Nat.two_pow_pos 64), Nat.two_pow_pos 30⟩
  | bytes => exact ⟨.bytes [] (Nat.two_pow_pos 64), Nat.two_pow_pos 30⟩
  | array hsize _ ih =>
    obtain ⟨v, hv⟩ := ih
    exact ⟨.array fun _ => v, hsize, fun _ => hv⟩
  | vector =>
    exact ⟨.vector 0 (Nat.two_pow_pos 64) fun i => i.elim0, Nat.two_pow_pos 30, fun i => i.elim0⟩
  | nil => exact ⟨.nil, trivial⟩
  | cons _ _ ihhead ihrest =>
    obtain ⟨v, hv⟩ := ihhead
    obtain ⟨vs, hvs⟩ := ihrest
    exact ⟨v.cons vs, hv, hvs⟩

/-- The length does not depend on the bytes that are read. -/
def Constant {t : AbiType} (v : AbiValue t) : Prop :=
  ∀ encodedBytes startPos,
    t.encodingLength encodedBytes startPos = some (v.encode.length % 2 ^ 32)

section Short

variable {head : AbiType} {rest : List AbiType} {v : AbiValue head} {vs : AbiValue (.tuple rest)}
  {elems : Fin size → AbiValue elem}

theorem Constant.cons (hv : Constant v) (hvs : Constant vs) : Constant (v.cons vs) := by
  intro encodedBytes startPos
  rw [encodingLength_cons, hv, bind_some, hvs, map_some, encode, length_append]
  congr 1
  omega

theorem constant_nil : Constant .nil := fun _ _ => encodingLength_tuple []

theorem constant_toTuple (h : ∀ i, Constant (elems i)) : Constant (toTuple elems) := by
  induction size with
  | zero => exact constant_nil
  | succ _ ih => exact (h 0).cons (ih fun i => h i.succ)

theorem small_of_toTuple (h : (toTuple elems).Small) : ∀ i, (elems i).Small := by
  induction size with
  | zero => exact fun i => i.elim0
  | succ _ ih => exact Fin.cases h.1 (ih h.2)

/-- No value of the type has a size that is written. -/
def Static (t : AbiType) : Prop := ∀ v : AbiValue t, Constant v ∧ v.Small

theorem Static.nil : Static (.tuple []) := by
  intro v
  cases v
  exact ⟨constant_nil, trivial⟩

theorem Static.cons (hhead : Static head) (hrest : Static (.tuple rest)) :
    Static (.tuple (head :: rest)) := by
  intro v
  cases v with
  | cons v vs => exact ⟨(hhead v).1.cons (hrest vs).1, (hhead v).2, (hrest vs).2⟩

theorem Static.array (h : Static (.tuple (replicate size elem))) (hsize : size < 2 ^ 32) :
    Static (.array elem size) := by
  intro v
  cases v with
  | array elems =>
    obtain ⟨hconstant, hsmall⟩ := h (toTuple elems)
    refine ⟨fun encodedBytes startPos => ?_, hsize, small_of_toTuple hsmall⟩
    rw [encodingLength_array_eq hsize, encode_array]
    exact hconstant encodedBytes startPos

theorem Short.cons (hv : Short v) (hvs : Constant vs) : Short (v.cons vs) := by
  intro before suffix _ heq
  rw [measured, encodingLength_cons, encode, append_assoc] at heq
  obtain ⟨value, hvalue, hmap⟩ := bind_eq_some_iff.mp heq
  rw [hvs, map_some] at hmap
  cases hmap
  have hlt := hv before (vs.encode ++ suffix) value hvalue
  rw [encode, length_append]
  omega

theorem Constant.short_vector (h : Constant (toTuple elems))
    (hbig : kMinBigInteger ≤ size) (hsize : size < 2 ^ 32) (hsize') :
    Short (.vector size hsize' elems) := by
  intro before suffix _ heq
  have hprefix := compactLen_lt_length_encodeSize hbig hsize'
  have hdecode := decodeAt_encodeSize before ((toTuple elems).encode ++ suffix) hsize'
  rw [mod_eq_of_lt hsize] at hdecode hprefix
  rw [measured, encode_vector, append_assoc, encodingLength_vector_eq hsize hdecode, h,
    map_some] at heq
  cases heq
  rw [encode_vector, length_append]
  omega

end Short

theorem exists_bigInteger : ∃ data : Bytes, data.length < 2 ^ 64 ∧
    data.length = kMinBigInteger := by
  have hlength : (replicate kMinBigInteger (0 : UInt8)).length = kMinBigInteger :=
    length_replicate
  exact ⟨replicate kMinBigInteger 0, by rw [hlength]; decide, hlength⟩

theorem SizesFit.static_or_short_cons {head rest} (hhead : SizesFit head)
    (hrest : SizesFit (.tuple rest)) (ihhead : Static head ∨ ∃ v : AbiValue head, Short v)
    (ihrest : Static (.tuple rest) ∨ ∃ vs : AbiValue (.tuple rest), Short vs) :
    Static (.tuple (head :: rest)) ∨ ∃ v : AbiValue (.tuple (head :: rest)), Short v := by
  rcases ihrest with hstatic | ⟨vs, hvs⟩
  · rcases ihhead with hstatic' | ⟨v, hv⟩
    · exact .inl (.cons hstatic' hstatic)
    · obtain ⟨vs, -⟩ := hrest.exists_small
      exact .inr ⟨v.cons vs, hv.cons (hstatic vs).1⟩
  · obtain ⟨v, hv⟩ := hhead.exists_small
    right
    by_cases hlength : v.encode.length < 2 ^ 32
    · exact ⟨v.cons vs, ((exact_of_fits v ⟨hv, hlength⟩).extends_cons vs).short hvs⟩
    · refine ⟨v.cons vs, short_of_le _ ?_⟩
      rw [encode, length_append]
      omega

theorem SizesFit.static_or_short {t} (h : SizesFit t) : Static t ∨ ∃ v : AbiValue t, Short v := by
  induction h with
  | integer =>
    left
    rintro ⟨⟩
    refine ⟨fun _ _ => ?_, trivial⟩
    rw [encodingLength_integer, encode, length_encodeInteger, mod_eq_of_lt (by omega)]
  | bool =>
    left
    rintro ⟨⟩
    exact ⟨fun _ _ => encodingLength_bool, trivial⟩
  | string =>
    obtain ⟨data, hdata, hlength⟩ := exists_bigInteger
    exact .inr ⟨_, (collection_string hdata).short hlength.ge⟩
  | bytes =>
    obtain ⟨data, hdata, hlength⟩ := exists_bigInteger
    exact .inr ⟨_, (collection_bytes hdata).short hlength.ge⟩
  | @array elem size hsize helem ih =>
    have htuple : SizesFit (.tuple (replicate size elem)) ∧
        (Static (.tuple (replicate size elem)) ∨
          ∃ vs : AbiValue (.tuple (replicate size elem)), Short vs) := by
      clear hsize
      induction size with
      | zero => exact ⟨.nil, .inl .nil⟩
      | succ _ ihsize =>
        obtain ⟨hrest, hcases⟩ := ihsize
        exact ⟨.cons helem hrest, helem.static_or_short_cons hrest ih hcases⟩
    rcases htuple.2 with hstatic | ⟨vs, hvs⟩
    · exact .inl (hstatic.array hsize)
    · obtain ⟨elems, rfl⟩ := exists_toTuple vs
      refine .inr ⟨.array elems, ?_⟩
      rw [Short, measured_array hsize, encode_array]
      exact hvs
  | @vector _ helem ih =>
    right
    rcases ih with hstatic | ⟨v, hv⟩
    · obtain ⟨v, -⟩ := helem.exists_small
      have hconstant : Constant (toTuple fun _ : Fin kMinBigInteger => v) :=
        constant_toTuple fun _ => (hstatic v).1
      exact ⟨_, hconstant.short_vector (le_refl _) (by decide) (by decide)⟩
    · have hshort : Short (toTuple fun _ : Fin 1 => v) := hv.cons constant_nil
      exact ⟨_, (extends_vector (by decide) (by decide)).short hshort⟩
  | nil => exact .inl .nil
  | cons hhead hrest ihhead ihrest => exact hhead.static_or_short_cons hrest ihhead ihrest

theorem all_exact_iff {t} (h : SizesFit t) :
    (∀ v : AbiValue t, Exact v) ↔ ∀ v : AbiValue t, v.Fits := by
  constructor
  · intro hexact v
    rcases h.static_or_short with hstatic | ⟨u, hu⟩
    · refine ⟨(hstatic v).2, ?_⟩
      by_contra hlength
      exact (short_of_le v (not_lt.mp hlength)).not_exact (hexact v)
    · exact absurd (hexact u) hu.not_exact
  · intro hfits v
    exact exact_of_fits v (hfits v)

/-- Compact integers are read as they were written.  The length of a parameter is exact for every
value that fits, and for no value of `2 ^ 32` bytes or more; it is exact for a string or a byte
string up to the last size class; and it is exact for all values of a type just when they all
fit. -/
theorem scale_roundTrip_and_length (n : Nat) (t : AbiType) :
    (n < 2 ^ 536 → ∃ bytes, encodeCompactInteger n = .ok bytes ∧
      ∀ suffix, decodeCompactInteger (bytes ++ suffix) = .ok (n, suffix)) ∧
    (∀ v : AbiValue t, (v.Fits → Exact v) ∧ (2 ^ 32 ≤ v.encode.length → ¬ Exact v)) ∧
    (∀ (data : Bytes) (h : data.length < 2 ^ 64),
      (Exact (.string data h) ↔ data.length < kMinBigInteger) ∧
        (Exact (.bytes data h) ↔ data.length < kMinBigInteger)) ∧
    (SizesFit t → ((∀ v : AbiValue t, Exact v) ↔ ∀ v : AbiValue t, v.Fits)) := by
  refine ⟨decode_encodeCompactInteger, ?_, ?_, all_exact_iff⟩
  · intro v
    exact ⟨exact_of_fits v, fun h => (short_of_le v h).not_exact⟩
  · intro _ h
    exact ⟨(collection_string h).exact_iff, (collection_bytes h).exact_iff⟩

/-- A string of `2 ^ 30` bytes has a prefix of five bytes, of which four are counted. -/
theorem string_measured_short :
    ∃ (data : Bytes) (h : data.length < 2 ^ 64), data.length = 2 ^ 30 ∧
      (string data h).encode.length = 2 ^ 30 + 5 ∧
      scaleEncodingLength string.parameter (string data h).encode 0 =
        some (2 ^ 30 + 4) := by
  obtain ⟨data, h, hlength⟩ := exists_bigInteger
  have hlow : 4 ≤ countBytes kMinBigInteger := lt_countBytes_of_le (by decide)
  have hhigh : countBytes kMinBigInteger ≤ 4 := (countBytes_le_iff _ 3).mpr (by decide)
  have hcount : countBytes kMinBigInteger = 4 := by omega
  have hlen : compactLen kMinBigInteger = 4 := by
    rw [compactLen, if_neg (by decide), if_neg (by decide), if_neg (by decide), hcount]
  refine ⟨data, h, hlength, ?_, ?_⟩
  · have hencode : (string data h).encode = encodeSize data.length ++ data := rfl
    rw [hencode, length_append, encodeSize_of_bigInteger hlength.ge h, length_cons,
      length_leBytes, hlength, hcount, kMinBigInteger, add_comm]
  · have hmeasured := (collection_string h).measured_eq [] []
    rw [hlength, mod_eq_of_lt (by decide), hlen] at hmeasured
    simpa [measured, encodingLength, kMinBigInteger] using hmeasured

end Loki.Fisco.Scale
