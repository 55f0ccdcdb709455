import Loki.Foundation.Call

/-!
# Key encodings of the trie

`hexToCompact`, `hexToCompactInPlace`, `compactToHex`, `keybytesToHex` and `hexToKeybytes` of
`trie/encoding.go`.  A hex key has one byte for each nibble and may end in the terminator 16.
-/

namespace Loki.Geth.Trie

open Loki.Foundation List

def hasTerm (s : List UInt8) : Bool := s.getLast? == some 16

/-- The loop that packs nibbles into a buffer of half their number. -/
def decodeNibbles : List UInt8 → List UInt8
  | high :: low :: nibbles => (high <<< 4 ||| low) :: decodeNibbles nibbles
  | [_] => []
  | [] => []

def hexToCompact (hex : List UInt8) : List UInt8 :=
  let terminator : UInt8 := if hasTerm hex then 1 else 0
  let hex := if hasTerm hex then hex.dropLast else hex
  if hex.length % 2 = 1 then
    (terminator <<< 5 ||| (1 : UInt8) <<< 4 ||| hex.headD 0) :: decodeNibbles hex.tail
  else terminator <<< 5 :: decodeNibbles hex

/-- `hex[bi] = hex[ni]<<4 | hex[ni+1]` while `ni` is below `hexLen`. -/
def packInPlace (hexLen : Nat) (hex : List UInt8) (bi ni : Nat) :
    Except (Fault Empty) (List UInt8) :=
  if ni < hexLen then
    match hex[ni]?, hex[ni + 1]?, decide (bi < hex.length) with
    | some high, some low, true =>
      packInPlace hexLen (hex.set bi (high <<< 4 ||| low)) (bi + 1) (ni + 2)
    | _, _, _ => .error (.panic "index out of range")
  else .ok hex
termination_by hexLen - ni

/-- The buffer afterwards, and the length of the compact key in it. -/
def hexToCompactInPlace (hex : List UInt8) : Except (Fault Empty) (List UInt8 × Nat) := do
  let terminated := hasTerm hex
  let hexLen := if terminated then hex.length - 1 else hex.length
  let firstByte := if terminated then (1 : UInt8) <<< 5 else 0
  let odd := hexLen % 2 = 1
  let firstByte := if odd then firstByte ||| (1 : UInt8) <<< 4 ||| hex.headD 0 else firstByte
  let hex ← packInPlace hexLen hex 1 (if odd then 1 else 0)
  if hex.length = 0 then .error (.panic "index out of range")
  else .ok (hex.set 0 firstByte, hexLen / 2 + 1)

def keybytesToHex (str : List UInt8) : List UInt8 := str.flatMap (fun b => [b / 16, b % 16]) ++ [16]

def compactToHex (compact : List UInt8) : List UInt8 :=
  if compact.length = 0 then compact
  else
    let base := keybytesToHex compact
    -- delete terminator flag
    let base := if base.headD 0 < 2 then base.dropLast else base
    -- apply odd flag
    base.drop (2 - (base.headD 0 &&& 1)).toNat

def hexToKeybytes (hex : List UInt8) : Except (Fault Empty) (List UInt8) :=
  let hex := if hasTerm hex then hex.dropLast else hex
  if hex.length % 2 ≠ 0 then .error (.panic "can't convert hex key of odd length")
  else .ok (decodeNibbles hex)

def Nibbles (s : List UInt8) : Prop := ∀ x ∈ s, x < 16

def withTerm (nibbles : List UInt8) (term : Bool) : List UInt8 :=
  if term then nibbles ++ [16] else nibbles

/-- A nibble string, with or without terminator. -/
def IsHex (s : List UInt8) : Prop := ∃ nibbles term, Nibbles nibbles ∧ s = withTerm nibbles term

/-! ## Nibbles and bytes -/

variable {high low first : UInt8} {nibbles hex tail : List UInt8} {hexLen bi ni : Nat}

section

variable (hhigh : high < 16) (hlow : low < 16)

include hhigh hlow

theorem toNat_pack : (high <<< 4 ||| low).toNat = high.toNat * 16 + low.toNat := by
  have hhigh : high.toNat < 16 := hhigh
  have hlow : low.toNat < 2 ^ 4 := hlow
  have hshift : (high <<< 4).toNat = high.toNat <<< 4 := by
    rw [UInt8.toNat_shiftLeft, Nat.shiftLeft_eq, Nat.shiftLeft_eq]
    change high.toNat * 16 % 256 = high.toNat * 16
    omega
  rw [UInt8.toNat_or, hshift, ← Nat.shiftLeft_add_eq_or_of_lt hlow, Nat.shiftLeft_eq]

theorem pack_div : (high <<< 4 ||| low) / 16 = high := by
  have hlow' : low.toNat < 16 := hlow
  apply UInt8.toNat_inj.mp
  rw [UInt8.toNat_div, toNat_pack hhigh hlow]
  change (high.toNat * 16 + low.toNat) / 16 = high.toNat
  omega

theorem pack_mod : (high <<< 4 ||| low) % 16 = low := by
  have hlow' : low.toNat < 16 := hlow
  apply UInt8.toNat_inj.mp
  rw [UInt8.toNat_mod, toNat_pack hhigh hlow]
  change (high.toNat * 16 + low.toNat) % 16 = low.toNat
  omega

end

theorem pack_div_mod (b : UInt8) : (b / 16) <<< 4 ||| b % 16 = b := by
  have hb := b.toNat_lt
  have hdiv : (b / 16).toNat = b.toNat / 16 := UInt8.toNat_div ..
  have hmod : (b % 16).toNat = b.toNat % 16 := UInt8.toNat_mod ..
  apply UInt8.toNat_inj.mp
  rw [toNat_pack, hdiv, hmod]
  · omega
  · exact UInt8.lt_iff_toNat_lt.mpr (by rw [hdiv]; simp; omega)
  · exact UInt8.lt_iff_toNat_lt.mpr (by rw [hmod]; simp; omega)

theorem flatMap_decodeNibbles (h : Nibbles nibbles) (heven : nibbles.length % 2 = 0) :
    (decodeNibbles nibbles).flatMap (fun b => [b / 16, b % 16]) = nibbles := by
  induction nibbles using decodeNibbles.induct with
  | case1 high low nibbles ih =>
    obtain ⟨hhigh, hlow, hrest⟩ : high < 16 ∧ low < 16 ∧ Nibbles nibbles := by
      simpa [Nibbles] using h
    have hrest := ih hrest (by simp at heven; omega)
    rw [decodeNibbles, flatMap_cons, pack_div hhigh hlow, pack_mod hhigh hlow, hrest]
    rfl
  | case2 => simp at heven
  | case3 => rfl

@[simp] theorem length_decodeNibbles (nibbles : List UInt8) :
    (decodeNibbles nibbles).length = nibbles.length / 2 := by
  induction nibbles using decodeNibbles.induct with
  | case1 _ _ nibbles ih =>
    simp only [decodeNibbles, length_cons, ih]
    omega
  | case2 | case3 => simp [decodeNibbles]

theorem decodeNibbles_flatMap (str : List UInt8) :
    decodeNibbles (str.flatMap fun b => [b / 16, b % 16]) = str := by
  induction str with
  | nil => rfl
  | cons b str ih =>
    rw [flatMap_cons, cons_append, cons_append, nil_append, decodeNibbles, pack_div_mod, ih]

section Term

variable (h : Nibbles nibbles) (term : Bool)

include h

theorem hasTerm_withTerm : hasTerm (withTerm nibbles term) = term := by
  cases term with
  | true => simp [hasTerm, withTerm]
  | false =>
    rw [hasTerm, beq_eq_false_iff_ne]
    intro hlast
    exact absurd (h 16 (mem_of_getLast? hlast)) (by decide)

theorem dropTerm_withTerm :
    (if hasTerm (withTerm nibbles term) then (withTerm nibbles term).dropLast
      else withTerm nibbles term) = nibbles := by
  rw [hasTerm_withTerm h]
  cases term <;> simp [withTerm]

/-- The high nibble of the first byte has the two flags, and the low one the odd nibble. -/
theorem hexToCompact_withTerm : hexToCompact (withTerm nibbles term) =
    if nibbles.length % 2 = 1 then
      ((if term then 3 else 1 : UInt8) <<< 4 ||| nibbles.headD 0) :: decodeNibbles nibbles.tail
    else ((if term then 2 else 0 : UInt8) <<< 4 ||| 0) :: decodeNibbles nibbles := by
  simp only [hexToCompact]
  rw [dropTerm_withTerm h, hasTerm_withTerm h]
  cases term <;> rfl

end Term

/-! ## The compact encoding -/

theorem compactToHex_pack (hhigh : high < 16) (hlow : low < 16) (h : Nibbles nibbles)
    (heven : nibbles.length % 2 = 0) :
    compactToHex ((high <<< 4 ||| low) :: decodeNibbles nibbles) =
      (withTerm (high :: low :: nibbles) (decide (2 ≤ high))).drop (2 - (high &&& 1)).toNat := by
  have hbase : keybytesToHex ((high <<< 4 ||| low) :: decodeNibbles nibbles) =
      high :: low :: nibbles ++ [16] := by
    rw [keybytesToHex, flatMap_cons, pack_div hhigh hlow, pack_mod hhigh hlow,
      flatMap_decodeNibbles h heven]
    rfl
  simp only [compactToHex, hbase, length_cons, withTerm]
  by_cases hflag : high < 2
  · simp [hflag, UInt8.not_le.mpr hflag, dropLast_cons_of_ne_nil]
  · simp [hflag, UInt8.not_lt.mp hflag]

theorem compactToHex_hexToCompact {s} (hs : IsHex s) : compactToHex (hexToCompact s) = s := by
  obtain ⟨nibbles, term, h, rfl⟩ := hs
  rw [hexToCompact_withTerm h]
  split
  next hodd =>
    cases nibbles with
    | nil => cases hodd
    | cons first nibbles =>
      obtain ⟨hfirst, hrest⟩ := forall_mem_cons.mp h
      rw [length_cons] at hodd
      rw [headD_cons, tail_cons,
        compactToHex_pack (by cases term <;> decide) hfirst hrest (by omega)]
      cases term <;> rfl
  next heven =>
    rw [compactToHex_pack (by cases term <;> decide) (by decide) h (by omega)]
    cases term <;> rfl

/-! ## The encoding in place -/

/-- What is written is never ahead of what is read. -/
theorem packInPlace_eq (heven : nibbles.length % 2 = 0) (hhex : hex.drop ni = nibbles ++ tail)
    (hle : bi ≤ ni + 1) (hlength : ni + nibbles.length = hexLen) :
    ∃ packed, packInPlace hexLen hex bi ni = .ok packed ∧
      packed.take (bi + nibbles.length / 2) = hex.take bi ++ decodeNibbles nibbles := by
  induction nibbles using decodeNibbles.induct generalizing hex bi ni with
  | case1 high low nibbles ih =>
    simp only [length_cons] at heven hlength
    have hhigh : hex[ni]? = some high := by
      rw [← Nat.add_zero ni, ← getElem?_drop, hhex]
      rfl
    have hlow : hex[ni + 1]? = some low := by
      rw [← getElem?_drop, hhex]
      rfl
    have hlt : ni + 1 < hex.length := (List.getElem?_eq_some_iff.mp hlow).1
    have hrest : (hex.set bi (high <<< 4 ||| low)).drop (ni + 2) = nibbles ++ tail := by
      rw [drop_set_of_lt (by omega), ← drop_drop, hhex]
      rfl
    obtain ⟨packed, hpacked, htake⟩ := ih (by omega) hrest (show bi + 1 ≤ _ by omega) (by omega)
    refine ⟨packed, ?_, ?_⟩
    · rw [packInPlace, if_pos (by omega)]
      simp only [hhigh, hlow, decide_eq_true (show bi < hex.length by omega)]
      exact hpacked
    · have hcount : bi + (nibbles.length + 1 + 1) / 2 = bi + 1 + nibbles.length / 2 := by omega
      rw [length_cons, length_cons, hcount, htake, decodeNibbles, take_add_one,
        take_set_of_le (Nat.le_refl _), getElem?_set_self (by omega)]
      simp
  | case2 => simp at heven
  | case3 =>
    refine ⟨hex, ?_, by simp [decodeNibbles]⟩
    rw [packInPlace, if_neg (by simp at hlength; omega)]

theorem hexToCompactInPlace_eq {s} (hs : IsHex s) (hne : s ≠ []) :
    ∃ buffer, hexToCompactInPlace s = .ok (buffer, (hexToCompact s).length) ∧
      buffer.take (hexToCompact s).length = hexToCompact s := by
  obtain ⟨nibbles, term, h, rfl⟩ := hs
  have hhex : withTerm nibbles term = nibbles ++ if term then [16] else [] := by
    cases term <;> simp [withTerm]
  have hhexLen : (if term then (withTerm nibbles term).length - 1
      else (withTerm nibbles term).length) = nibbles.length := by
    cases term <;> simp [withTerm]
  have hset {packed body : List UInt8} {k b}
      (htake : packed.take (1 + k) = (withTerm nibbles term).take 1 ++ body) :
      packed.length ≠ 0 ∧ (packed.set 0 b).take (k + 1) = b :: body := by
    obtain ⟨x, xs, hx⟩ := exists_cons_of_ne_nil hne
    rw [hx, Nat.add_comm] at htake
    cases packed with
    | nil => simp at htake
    | cons y ys => simpa using (cons.inj htake).2
  rw [hexToCompact_withTerm h]
  simp only [hexToCompactInPlace, hasTerm_withTerm h, hhexLen]
  by_cases hodd : nibbles.length % 2 = 1
  · cases nibbles with
    | nil => cases hodd
    | cons first nibbles =>
      have hdrop : (withTerm (first :: nibbles) term).drop 1 =
          nibbles ++ if term then [16] else [] := by
        rw [hhex]
        rfl
      rw [length_cons] at hodd
      obtain ⟨packed, hpacked, htake⟩ :=
        packInPlace_eq (by omega) hdrop (show 1 ≤ _ by omega) (Nat.add_comm ..)
      have hlength : (nibbles.length + 1) / 2 = nibbles.length / 2 := by omega
      simp only [length_cons, hodd, if_true, hpacked, length_decodeNibbles, tail_cons, hlength]
      refine ⟨packed.set 0 _, ?_, (hset htake).2⟩
      rw [hhex]
      simp [bind, Except.bind, (hset (b := 0) htake).1]
      cases term <;> rfl
  · obtain ⟨packed, hpacked, htake⟩ :=
      packInPlace_eq (by omega) (drop_zero.trans hhex) (show 1 ≤ _ by omega) (Nat.zero_add _)
    simp only [length_cons, hodd, if_false, hpacked, length_decodeNibbles]
    refine ⟨packed.set 0 _, ?_, (hset htake).2⟩
    simp [bind, Except.bind, (hset (b := 0) htake).1]
    cases term <;> rfl

/-- The compact encoding and the encoding of bytes are undone, and the version that works in its
input leaves the same bytes. -/
theorem keyEncodings_inverse :
    (∀ s, IsHex s → compactToHex (hexToCompact s) = s) ∧
    (∀ s, IsHex s → s ≠ [] → ∃ buffer,
      hexToCompactInPlace s = .ok (buffer, (hexToCompact s).length) ∧
      buffer.take (hexToCompact s).length = hexToCompact s) ∧
    (∀ str, hexToKeybytes (keybytesToHex str) = .ok str) ∧
    ∀ s t, IsHex s → IsHex t → hexToCompact s = hexToCompact t → s = t := by
  refine ⟨fun s => compactToHex_hexToCompact, fun s => hexToCompactInPlace_eq, fun str => ?_, ?_⟩
  · have hterm : hasTerm (keybytesToHex str) = true := by simp [hasTerm, keybytesToHex]
    have heven : (str.flatMap fun b => [b / 16, b % 16]).length % 2 = 0 := by
      simp [map_const']
    simp only [hexToKeybytes, hterm, if_true]
    rw [keybytesToHex, dropLast_concat, if_neg (by omega), decodeNibbles_flatMap]
  · intro s t hs ht heq
    rw [← compactToHex_hexToCompact hs, heq, compactToHex_hexToCompact ht]

end Loki.Geth.Trie
