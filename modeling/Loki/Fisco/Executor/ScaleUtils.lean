import Loki.Fisco.Codec.Abi

/-!
# The length of an encoded parameter

`decodeCompactInteger` and `scaleEncodingLength` of `bcos-executor/src/dag/ScaleUtils.cpp`.  The
length of a parameter is found from the name of its type and, for what has a size, from the
encoding.  Numbers are of type `unsigned`, and the length of a size prefix is computed from the
number that was read.

Positions and the length of the data are natural numbers; only the difference of the two, which
may be negative, is taken as the source takes it, modulo `2 ^ 64`.
-/

namespace Loki.Fisco.Scale

open Loki.Foundation List Nat Char

/-! ## Compact integers in 32 bits -/

variable (c : Char) (name : List Char) (t : AbiType) (encodedBytes : Bytes) (startPos : Nat)

/-- `encodedBytes.size() - startPos` -/
def available : Nat :=
  if startPos ≤ encodedBytes.length then encodedBytes.length - startPos
  else encodedBytes.length + 2 ^ 64 - startPos

def bytesAt (encodedBytes : Bytes) (startPos : Nat) : Nat → Bytes
  | 0 => []
  | n + 1 => encodedBytes.getD startPos 0 :: bytesAt encodedBytes (startPos + 1) n

def decodeCompactIntegerAt : Option Nat :=
  if available encodedBytes startPos < 1 then none
  else
    let first := (encodedBytes.getD startPos 0).toNat
    match first % 4 with
    | 0 => some (first / 4)
    | 1 =>
      if available encodedBytes startPos < 2 then none
      else
        let second := (encodedBytes.getD (startPos + 1) 0).toNat
        some ((first / 4 * 4 + second * 256) / 4)
    | 2 =>
      if available encodedBytes startPos < 4 then none
      else some (accumulate (2 ^ 32) 256 first (bytesAt encodedBytes (startPos + 1) 3) / 4)
    | _ =>
      let bytesCount := first / 4 + 4
      if available encodedBytes startPos < bytesCount + 1 then none
      else some (accumulate (2 ^ 32) 1 0 (bytesAt encodedBytes (startPos + 1) bytesCount))

def compactLen (val : Nat) : Nat :=
  if val < kMinUint16 then 1
  else if val < kMinUint32 then 2
  else if val < kMinBigInteger then 4
  else countBytes val

section DecodeAt

variable (before : Bytes) {first : UInt8} {rest : Bytes}

theorem available_append : available (before ++ rest) before.length = rest.length := by
  simp [available]

theorem getD_append_length : (before ++ first :: rest).getD before.length 0 = first := by simp

theorem bytesAt_append {count} (h : count ≤ rest.length) :
    bytesAt (before ++ rest) before.length count = rest.take count := by
  induction count generalizing before rest with
  | zero => rfl
  | succ count ih =>
    cases rest with
    | nil => simp at h
    | cons byte rest =>
      have hrest : bytesAt (before ++ [byte] ++ rest) (before ++ [byte]).length count =
          rest.take count := ih (before ++ [byte]) (by simpa using h)
      rw [append_assoc, singleton_append, length_append] at hrest
      rw [bytesAt, getD_append_length, take_succ_cons]
      exact congrArg (byte :: ·) hrest

theorem bytesAt_succ {count} (h : count ≤ rest.length) :
    bytesAt (before ++ first :: rest) (before.length + 1) count = rest.take count := by
  have hrest := bytesAt_append (before ++ [first]) h
  rwa [append_assoc, singleton_append, length_append] at hrest

/-- What the stream decoder reads, this one reads modulo `2 ^ 32`. -/
theorem decodeAt_of_ok {n suffix} (h : decodeCompactInteger rest = .ok (n, suffix)) :
    decodeCompactIntegerAt (before ++ rest) before.length = some (n % 2 ^ 32) := by
  cases rest with
  | nil => cases h
  | cons first rest =>
    have hfirst := first.toNat_lt
    have hflag : first.toNat % 4 = 0 ∨ first.toNat % 4 = 1 ∨ first.toNat % 4 = 2 ∨
        first.toNat % 4 = 3 := by omega
    simp only [decodeCompactInteger] at h
    simp only [decodeCompactIntegerAt, available_append, getD_append_length, length_cons]
    rw [if_neg (by omega)]
    rcases hflag with hflag | hflag | hflag | hflag <;> simp only [hflag] at h ⊢
    · cases h
      rw [mod_eq_of_lt (by omega)]
    · cases rest with
      | nil => cases h
      | cons second rest =>
        have hsecond := second.toNat_lt
        cases h
        simp
        omega
    · split_ifs at h
      cases h
      have hlt := leValue_lt (rest.take 3)
      rw [length_take_of_le (by omega)] at hlt
      rw [if_neg (by omega), bytesAt_succ before (by omega), accumulate_of_lt (by omega),
        accumulate_of_lt (by omega), mod_eq_of_lt (by omega)]
    · split_ifs at h
      cases h
      have hmod := accumulate_eq (2 ^ 32) 1 0 (rest.take (first.toNat / 4 + 4))
      rw [mod_eq_of_lt (accumulate_lt 1 _ (by decide))] at hmod
      rw [if_neg (by omega), bytesAt_succ before (by omega), hmod, accumulate_zero, one_mul]

end DecodeAt

theorem decodeAt_encodeSize (before suffix : Bytes) {n} (h : n < 2 ^ 64) :
    decodeCompactIntegerAt (before ++ (encodeSize n ++ suffix)) before.length =
      some (n % 2 ^ 32) := by
  obtain ⟨bytes, hbytes, hdecode⟩ := decode_encodeCompactInteger (lt_two_pow_of_lt h)
  rw [encodeSize_of_ok hbytes]
  exact decodeAt_of_ok before (hdecode suffix)

theorem length_encodeSize {n} (h : n < kMinBigInteger) : (encodeSize n).length = compactLen n := by
  simp only [compactLen]
  split_ifs with h16 h32
  · rw [encodeSize_of_ok (encodeCompactInteger_of_lt_uint16 h16)]
    rfl
  · rw [encodeSize_of_ok (encodeCompactInteger_of_lt_uint32 (by omega) h32)]
    rfl
  · rw [encodeSize_of_ok (encodeCompactInteger_of_lt_bigInteger (by omega) h)]
    exact length_leBytes 4 _

theorem compactLen_le {n} (h : n < 2 ^ 32) : compactLen n ≤ 4 := by
  simp only [compactLen]
  split_ifs
  · omega
  · omega
  · omega
  · exact (countBytes_le_iff n 3).mpr h

theorem compactLen_lt_length_encodeSize {n} (h : kMinBigInteger ≤ n) (h' : n < 2 ^ 64) :
    compactLen (n % 2 ^ 32) < (encodeSize n).length := by
  have hmin : 4 ≤ countBytes n := lt_countBytes_of_le (le_trans (by decide) h)
  have hle := compactLen_le (mod_lt n (show 0 < 2 ^ 32 by decide))
  rw [encodeSize_of_bigInteger h h', length_cons, length_leBytes]
  omega

/-! ## Names of types -/

namespace Name

def uint : List Char := ['u', 'i', 'n', 't']

def int : List Char := ['i', 'n', 't']

def string : List Char := ['s', 't', 'r', 'i', 'n', 'g']

def bytes : List Char := ['b', 'y', 't', 'e', 's']

def bool : List Char := ['b', 'o', 'o', 'l']

def byte : List Char := ['b', 'y', 't', 'e']

def tuple : List Char := ['t', 'u', 'p', 'l', 'e']

end Name

/-- `type.substr(type.rfind(c) + 1)` -/
def afterLast : List Char := (name.reverse.takeWhile (· ≠ c)).reverse

/-- What stands before and after the last `c` of a name. -/
def splitLast : Option (List Char × List Char) :=
  match name.reverse.dropWhile (· ≠ c) with
  | [] => none
  | _ :: before => some (before.reverse, afterLast c name)

/-- `std::stoul`: blanks, a sign, and at least one digit.  A number that does not fit is an
exception, and so is a text without digits. -/
def stoul (text : List Char) : Option Nat :=
  let text := text.dropWhile isWhitespace
  let negative := text.head? = some '-'
  let text := if negative ∨ text.head? = some '+' then text.tail else text
  match text.takeWhile isDigit with
  | [] => none
  | digits =>
    let n := ofDigitChars 10 digits 0
    if 2 ^ 64 ≤ n then none else if negative then some ((2 ^ 64 - n) % 2 ^ 64) else some n

inductive ParameterAbi where
  | mk (type : List Char) (components : List ParameterAbi)

def ParameterAbi.type : ParameterAbi → List Char
  | mk type _ => type

def ParameterAbi.components : ParameterAbi → List ParameterAbi
  | mk _ components => components

/-! ## Lengths -/

/-- Measure one part after the other, each where the one before ends, and add up the lengths. -/
def measureAll : List (Nat → Option Nat) → Nat → Nat → Option Nat
  | [], _, length => some length
  | measure :: measures, startPos, length =>
    match measure startPos with
    | none => none
    | some value => measureAll measures (startPos + value) ((length + value) % 2 ^ 32)

/-- The size of an array, and the length of its prefix, from what stands after the last left
bracket. -/
def arraySize (dimmension : List Char) (encodedBytes : Bytes) (startPos : Nat) :
    Option (Nat × Nat) :=
  if dimmension = [']'] then
    (decodeCompactIntegerAt encodedBytes startPos).map fun size => (size, compactLen size)
  else (stoul dimmension).map fun size => (size % 2 ^ 32, 0)

theorem length_lt_of_splitLast {c name parts}
    (h : splitLast c name = some parts) : parts.1.length < name.length := by
  simp only [splitLast] at h
  split at h
  · cases h
  · rename_i d before hdrop
    cases h
    have hle := (dropWhile_suffix (· ≠ c) (l := name.reverse)).length_le
    rw [hdrop] at hle
    simp at hle ⊢
    omega

def scaleEncodingLength (param : ParameterAbi) (encodedBytes : Bytes) (startPos : Nat) :
    Option Nat :=
  let type := param.type
  if type.getLast? = some ']' then
    match _hsplit : splitLast '[' type with
    | none => none
    | some (elem, dimmension) =>
      match arraySize dimmension encodedBytes startPos with
      | none => none
      | some (size, length) =>
        measureAll
          (replicate size fun startPos =>
            scaleEncodingLength (.mk elem param.components) encodedBytes startPos)
          (startPos + length) length
  else if Name.uint.isPrefixOf type ∨ Name.int.isPrefixOf type then
    (stoul (afterLast 't' type)).map fun digitsNum => digitsNum % 2 ^ 32 / 8
  else if type = Name.string ∨ type = Name.bytes then
    (decodeCompactIntegerAt encodedBytes startPos).map fun value => value + compactLen value
  else if type = Name.bool ∨ type = Name.byte then some 1
  else if Name.bytes.isPrefixOf type then
    (stoul (afterLast 's' type)).map fun digitsNum => digitsNum % 2 ^ 32
  else if type = Name.tuple then
    measureAll
      (param.components.attach.map fun component startPos =>
        scaleEncodingLength component.1 encodedBytes startPos)
      startPos 0
  else none
termination_by (sizeOf param.components, param.type.length)
decreasing_by
  · exact Prod.Lex.right _ (length_lt_of_splitLast _hsplit)
  · apply Prod.Lex.left
    have hlt := sizeOf_lt_of_mem component.2
    rcases component with ⟨⟨type, components⟩, hmem⟩
    simp only [ParameterAbi.components, ParameterAbi.mk.sizeOf_spec] at hlt ⊢
    omega

/-! ## The ABI types as parameters -/

namespace AbiType

def typeName : AbiType → List Char
  | integer signed last =>
    (if signed then Name.int else Name.uint) ++ toDigits 10 (8 * (last.val + 1))
  | bool => Name.bool
  | string => Name.string
  | bytes => Name.bytes
  | array elem size => elem.typeName ++ '[' :: (toDigits 10 size ++ [']'])
  | vector elem => elem.typeName ++ ['[', ']']
  | tuple _ => Name.tuple

mutual

def components : AbiType → List ParameterAbi
  | array elem _ => elem.components
  | vector elem => elem.components
  | tuple types => parameters types
  | _ => []

def parameters : List AbiType → List ParameterAbi
  | [] => []
  | t :: types => .mk t.typeName t.components :: parameters types

end

def parameter : ParameterAbi := .mk t.typeName t.components

def encodingLength : Option Nat := scaleEncodingLength t.parameter encodedBytes startPos

end AbiType

section Names

variable {c : Char} {before after : List Char}

theorem reverse_ne_of_notMem (h : c ∉ after) : ∀ d ∈ after.reverse, decide (d ≠ c) = true := by
  intro d hd
  have hne : d ≠ c := fun heq => h (heq ▸ mem_reverse.mp hd)
  simpa using hne

theorem afterLast_append (h : c ∉ after) : afterLast c (before ++ c :: after) = after := by
  have hreverse : (before ++ c :: after).reverse = after.reverse ++ c :: before.reverse := by simp
  rw [afterLast, hreverse, takeWhile_append_of_pos (reverse_ne_of_notMem h)]
  simp

theorem splitLast_append (h : c ∉ after) :
    splitLast c (before ++ c :: after) = some (before, after) := by
  have hreverse : (before ++ c :: after).reverse = after.reverse ++ c :: before.reverse := by simp
  rw [splitLast, afterLast_append h, hreverse, dropWhile_append_of_pos (reverse_ne_of_notMem h)]
  simp

end Names

theorem isDigit_toDigits {n c} (h : c ∈ toDigits 10 n) : c.isDigit = true :=
  isDigit_of_mem_toDigits (by decide) (by decide) h

theorem notMem_toDigits {c} (h : c.isDigit = false) (n : Nat) : c ∉ toDigits 10 n := by
  intro hmem
  rw [isDigit_toDigits hmem] at h
  cases h

theorem stoul_toDigits (n : Nat) {rest} (h : rest.takeWhile isDigit = []) :
    stoul (toDigits 10 n ++ rest) = if 2 ^ 64 ≤ n then none else some n := by
  have hvalue : ofDigitChars 10 (toDigits 10 n) 0 = n := ofDigitChars_ten_toDigits
  have hdigits : ∀ c ∈ toDigits 10 n, c.isDigit = true := fun c => isDigit_toDigits
  obtain ⟨c, _, hcons⟩ := exists_cons_of_ne_nil (toDigits_ne_nil (n := n) (b := 10))
  have hc : c.isDigit = true := hdigits c (by simp [hcons])
  have htake : (toDigits 10 n ++ rest).takeWhile isDigit = toDigits 10 n := by
    rw [takeWhile_append_of_pos hdigits, h, append_nil]
  have hblank : c.isWhitespace = false := by
    by_contra hblank
    simp only [isWhitespace, Bool.not_eq_false, Bool.or_eq_true, decide_eq_true_eq] at hblank
    rcases hblank with ((rfl | rfl) | rfl) | rfl <;> cases hc
  have hminus : c ≠ '-' := by
    rintro rfl
    cases hc
  have hplus : c ≠ '+' := by
    rintro rfl
    cases hc
  have hdrop : (toDigits 10 n ++ rest).dropWhile isWhitespace =
      toDigits 10 n ++ rest := by
    simp [hcons, hblank]
  have hhead : (toDigits 10 n ++ rest).head? = some c := by simp [hcons]
  simp only [stoul, hdrop, hhead, Option.some.injEq, hminus, hplus, or_self, if_false, htake]
  rw [hcons]
  simp [← hcons, hvalue]

namespace AbiType

/-! ## What is computed for each type -/

section Equations

variable {encodedBytes : Bytes} {startPos : Nat}

theorem encodingLength_brackets {name dimmension components}
    (h : '[' ∉ dimmension) (hlast : dimmension.getLast? = some ']') :
    scaleEncodingLength (.mk (name ++ '[' :: dimmension) components) encodedBytes startPos =
      (arraySize dimmension encodedBytes startPos).bind fun found =>
        measureAll
          (replicate found.1 (scaleEncodingLength (.mk name components) encodedBytes))
          (startPos + found.2) found.2 := by
  have hlast' : (name ++ '[' :: dimmension).getLast? = some ']' := by
    rw [getLast?_append, getLast?_cons]
    simp [hlast]
  have hsplit : splitLast '[' (name ++ '[' :: dimmension) = some (name, dimmension) :=
    splitLast_append h
  rw [scaleEncodingLength]
  simp only [ParameterAbi.type, ParameterAbi.components, hlast', if_true]
  split
  · rename_i hnone
    rw [hsplit] at hnone
    cases hnone
  · rename_i elem dim hsome
    rw [hsplit] at hsome
    cases hsome
    cases arraySize dimmension encodedBytes startPos with
    | none | some => rfl

theorem encodingLength_vector (elem : AbiType) :
    (vector elem).encodingLength encodedBytes startPos =
      (decodeCompactIntegerAt encodedBytes startPos).bind fun size =>
        measureAll (replicate size (elem.encodingLength encodedBytes))
          (startPos + compactLen size) (compactLen size) := by
  simp only [encodingLength, parameter, typeName, components]
  rw [encodingLength_brackets (by decide) (by decide), arraySize, if_pos rfl]
  cases decodeCompactIntegerAt encodedBytes startPos with
  | none | some => rfl

theorem encodingLength_array (elem : AbiType) (size : Nat) :
    (array elem size).encodingLength encodedBytes startPos =
      if 2 ^ 64 ≤ size then none
      else measureAll (replicate (size % 2 ^ 32) (elem.encodingLength encodedBytes))
        startPos 0 := by
  have hbracket : '[' ∉ toDigits 10 size ++ [']'] := by simp [notMem_toDigits]
  have hdimension : toDigits 10 size ++ [']'] ≠ [']'] := by simp [toDigits_ne_nil]
  simp only [encodingLength, parameter, typeName, components]
  rw [encodingLength_brackets hbracket (by simp), arraySize, if_neg hdimension,
    stoul_toDigits size (by decide)]
  split_ifs
  · rfl
  · rfl

theorem encodingLength_bool : bool.encodingLength encodedBytes startPos = some 1 := by
  rw [encodingLength, scaleEncodingLength]
  rfl

theorem encodingLength_counted {type} (h : type = string ∨ type = bytes) :
    type.encodingLength encodedBytes startPos =
      (decodeCompactIntegerAt encodedBytes startPos).map fun size => size + compactLen size := by
  rcases h with rfl | rfl
  all_goals
    rw [encodingLength, scaleEncodingLength]
    rfl

theorem components_tuple (types : List AbiType) :
    (tuple types).components = types.map parameter := by
  have h : parameters types = types.map parameter := by
    induction types with
    | nil => rfl
    | cons _ _ ih => rw [parameters, ih, map_cons, parameter]
  exact h

theorem encodingLength_tuple (types : List AbiType) :
    (tuple types).encodingLength encodedBytes startPos =
      measureAll (types.map fun t => t.encodingLength encodedBytes) startPos 0 := by
  rw [encodingLength, scaleEncodingLength]
  simp only [parameter, typeName, ParameterAbi.type, ParameterAbi.components]
  have hcomponents : (tuple types).components.attach.map
      (fun component startPos => scaleEncodingLength component.1 encodedBytes startPos) =
      (tuple types).components.map fun component => scaleEncodingLength component encodedBytes :=
    attach_map_val (f := fun component => scaleEncodingLength component encodedBytes)
  rw [hcomponents, components_tuple, map_map]
  rfl

theorem encodingLength_integer (signed : Bool) (last : Fin 32) :
    (integer signed last).encodingLength encodedBytes startPos = some (last.val + 1) := by
  have hname : ∃ before, (integer signed last).typeName =
        before ++ 't' :: toDigits 10 (8 * (last.val + 1)) ∧
      (Name.uint.isPrefixOf (integer signed last).typeName ∨
        Name.int.isPrefixOf (integer signed last).typeName) := by
    cases signed with
    | true => exact ⟨['i', 'n'], rfl, .inr (by simp [typeName])⟩
    | false => exact ⟨['u', 'i', 'n'], rfl, .inl (by simp [typeName])⟩
  obtain ⟨before, hname, hprefix⟩ := hname
  have hlast : (before ++ 't' :: toDigits 10 (8 * (last.val + 1))).getLast? ≠ some ']' := by
    intro heq
    rcases mem_cons.mp (mem_of_getLast? (by simpa using heq)) with heq | hmem
    · cases heq
    · exact notMem_toDigits rfl _ hmem
  have hstoul : stoul (toDigits 10 (8 * (last.val + 1))) = some (8 * (last.val + 1)) := by
    rw [← append_nil (toDigits _ _), stoul_toDigits _ rfl, if_neg (by omega)]
  rw [hname] at hprefix
  rw [encodingLength, scaleEncodingLength]
  simp only [parameter, ParameterAbi.type, hname, if_neg hlast, if_pos hprefix]
  rw [afterLast_append (notMem_toDigits rfl _), hstoul]
  simp only [Option.map_some, Option.some.injEq]
  omega

end Equations

end AbiType

end Loki.Fisco.Scale
