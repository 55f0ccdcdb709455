import Loki.Fabric.QueryResultsHelper
import Loki.Foundation.Call

/-!
# Phantom reads by hashes

`rangeQueryHashValidator` of `statebasedval/range_query_validator.go` compares the tree under
construction with the recorded summary after every result.  It does not expect the tree to rise
above the recorded level.
-/

namespace Loki.Fabric

open Loki.Foundation List HashForest IsLeaf RangeQueryResultsHelper Nat

/-- `QueryReadsMerkleSummary.Equal`, of a receiver that is not nil. -/
def QueryReadsMerkleSummary.equal (ms : QueryReadsMerkleSummary) :
    Option QueryReadsMerkleSummary → Bool
  | none => false
  | some anotherMS => ms.maxDegree == anotherMS.maxDegree && ms.maxLevel == anotherMS.maxLevel &&
      ms.maxLevelHashes.length == anotherMS.maxLevelHashes.length &&
      ms.maxLevelHashes == anotherMS.maxLevelHashes

namespace RangeQueryHashValidator

variable (C : Codec) {matched : Nat} {t : Nat × List Bytes} {results part : List KVRead}

def init (inMerkle : QueryReadsMerkleSummary) : Option RangeQueryResultsHelper × Option String :=
  match new true inMerkle.maxDegree with
  | .ok helper => (some helper, none)
  | .error e => (none, some e)

/-- The comparison after a result; `matched` is `lastMatchedIndex + 1`, and without a number the
validation has failed. -/
def compare (inMerkle merkle : QueryReadsMerkleSummary) (matched : Nat) : Outcome (Option Nat) :=
  if merkle.maxLevel < inMerkle.maxLevel then .ok (some matched)
  else if matched = merkle.maxLevelHashes.length then .ok (some matched)
  else if inMerkle.maxLevelHashes.length < merkle.maxLevelHashes.length then .ok none
  else
    match merkle.maxLevelHashes[matched]?, inMerkle.maxLevelHashes[matched]? with
    | some h, some inHash => if h = inHash then .ok (some (matched + 1)) else .ok none
    | _, _ => .error (.panic "runtime error: index out of range")

def loop (inMerkle : QueryReadsMerkleSummary) :
    RangeQueryResultsHelper → Nat → List KVRead → Outcome Bool
  | helper, _, [] =>
    match helper.done C with
    | .error e => .error (.error e)
    | .ok (_, merkle) => .ok (inMerkle.equal merkle)
  | helper, matched, result :: results =>
    let helper := (helper.addResult C result).1
    match helper.getMerkleSummary with
    | none => .error (.panic "runtime error: invalid memory address or nil pointer dereference")
    | some merkle =>
      match compare inMerkle merkle matched with
      | .error fault => .error fault
      | .ok none => .ok false
      | .ok (some matched) => loop inMerkle helper matched results

/-- `init` with its error ignored, and `validate`. -/
def validate (inMerkle : QueryReadsMerkleSummary) (results : List KVRead) : Outcome Bool :=
  match (init inMerkle).1 with
  | none => .error (.panic "runtime error: invalid memory address or nil pointer dereference")
  | some helper => loop C inMerkle helper 0 results

/-! ## One comparison -/

variable {C} {inMerkle : QueryReadsMerkleSummary}

variable (inMerkle)

def level : Nat := max inMerkle.maxLevel 1

def Agrees (t : Nat × List Bytes) (matched : Nat) : Prop :=
  t.1 < level inMerkle ∧ matched = 0 ∨
    t.1 = level inMerkle ∧ matched = t.2.length ∧ t.2 <+: inMerkle.maxLevelHashes

def Departs (t : Nat × List Bytes) : Prop :=
  t.1 = level inMerkle ∧ ¬ t.2 <+: inMerkle.maxLevelHashes

variable {inMerkle}

theorem compare_next {hashes h n} (hlevel : n = level inMerkle)
    (hmatched : matched = hashes.length) (hpre : hashes <+: inMerkle.maxLevelHashes) :
    compare inMerkle ⟨inMerkle.maxDegree, n, hashes ++ [h]⟩ matched = .ok none ∧
        Departs inMerkle (n, hashes ++ [h]) ∨
      compare inMerkle ⟨inMerkle.maxDegree, n, hashes ++ [h]⟩ matched = .ok (some (matched + 1)) ∧
        Agrees inMerkle (n, hashes ++ [h]) (matched + 1) := by
  obtain ⟨rest, hrest⟩ := hpre
  have hnot : ¬ n < inMerkle.maxLevel := by
    rw [hlevel, level]
    exact not_lt.mpr (le_max_left _ _)
  have hne : matched ≠ (hashes ++ [h]).length := by
    rw [hmatched, length_append, length_singleton]
    omega
  simp only [compare, if_neg hnot, if_neg hne]
  cases rest with
  | nil =>
    rw [append_nil] at hrest
    rw [← hrest, if_pos (by simp)]
    refine .inl ⟨rfl, hlevel, fun hpre => ?_⟩
    have hle := hpre.length_le
    rw [← hrest, length_append, length_singleton] at hle
    omega
  | cons inHash rest =>
    rw [← hrest, if_neg (by simp), hmatched, getElem?_append_right (le_refl _),
      getElem?_append_right (le_refl _)]
    simp only [Nat.sub_self, getElem?_cons_zero]
    by_cases heq : h = inHash
    · rw [if_pos heq]
      refine .inr ⟨rfl, .inr ⟨hlevel, by simp, ?_⟩⟩
      rw [← hrest, heq]
      exact ⟨rest, by simp⟩
    · rw [if_neg heq]
      refine .inl ⟨rfl, hlevel, fun hpre => heq ?_⟩
      rw [← hrest] at hpre
      exact (cons_prefix_cons.mp ((prefix_append_right_inj hashes).mp hpre)).1

theorem compare_below (ht : 1 ≤ t.1) (hlt : t.1 < level inMerkle) (matched : Nat) :
    compare inMerkle ⟨inMerkle.maxDegree, t.1, t.2⟩ matched = .ok (some matched) := by
  have hlt' : t.1 < inMerkle.maxLevel := by
    rw [level] at hlt
    omega
  rw [compare, if_pos hlt']

theorem compare_above (hdegree : 2 ≤ inMerkle.maxDegree) (h : Bytes)
    (hmatched : matched = inMerkle.maxDegree)
    (hle : inMerkle.maxDegree ≤ inMerkle.maxLevelHashes.length) :
    compare inMerkle ⟨inMerkle.maxDegree, level inMerkle + 1, [h]⟩ matched =
      .error (.panic "runtime error: index out of range") := by
  have hnot : ¬ level inMerkle + 1 < inMerkle.maxLevel := by
    rw [level]
    omega
  have hnone : ([h] : List Bytes)[matched]? = none :=
    getElem?_eq_none (by rw [length_singleton]; omega)
  simp only [compare, if_neg hnot, length_singleton, hnone]
  rw [if_neg (by omega), if_neg (by omega)]

theorem compare_grows (hdegree : 2 ≤ inMerkle.maxDegree) {t'} (ht : 1 ≤ t.1)
    (hagrees : Agrees inMerkle t matched) (hgrows : Grows inMerkle.maxDegree t t') :
    (∃ matched', compare inMerkle ⟨inMerkle.maxDegree, t'.1, t'.2⟩ matched = .ok (some matched') ∧
        Agrees inMerkle t' matched') ∨
      (compare inMerkle ⟨inMerkle.maxDegree, t'.1, t'.2⟩ matched = .ok none ∧
        Departs inMerkle t') ∨
      (compare inMerkle ⟨inMerkle.maxDegree, t'.1, t'.2⟩ matched =
          .error (.panic "runtime error: index out of range") ∧
        t.1 = level inMerkle ∧ t'.1 = level inMerkle + 1 ∧ t'.2 ≠ [] ∧
        t.2.length = inMerkle.maxDegree ∧ t.2 <+: inMerkle.maxLevelHashes) := by
  cases hgrows with
  | same =>
    rcases hagrees with ⟨hlt, hzero⟩ | ⟨heq, hmatched, hpre⟩
    · exact .inl ⟨matched, compare_below ht hlt matched, .inl ⟨hlt, hzero⟩⟩
    · refine .inl ⟨matched, ?_, .inr ⟨heq, hmatched, hpre⟩⟩
      rw [compare, if_pos hmatched, ite_self]
  | push n hashes h =>
    rcases hagrees with ⟨hlt, hzero⟩ | ⟨heq, hmatched, hpre⟩
    · exact .inl ⟨matched, compare_below (t := (n, hashes ++ [h])) ht hlt matched,
        .inl ⟨hlt, hzero⟩⟩
    · rcases compare_next heq hmatched hpre with hdeparts | hagrees
      · exact .inr (.inl hdeparts)
      · exact .inl ⟨_, hagrees⟩
  | rise n _ h hlength =>
    rcases hagrees with ⟨hlt, rfl⟩ | ⟨heq, hmatched, hpre⟩
    · dsimp only at hlt
      rcases lt_or_eq_of_le (succ_le_of_lt hlt) with hlt | heq
      · exact .inl ⟨0, compare_below (by omega) hlt 0, .inl ⟨hlt, rfl⟩⟩
      · rcases @compare_next 0 inMerkle [] h (n + 1) heq rfl nil_prefix with
          hdeparts | hagrees
        · exact .inr (.inl hdeparts)
        · exact .inl ⟨1, hagrees⟩
    · obtain rfl : n = level inMerkle := heq
      exact .inr (.inr ⟨compare_above hdegree h (hmatched.trans hlength)
        (hlength ▸ hpre.length_le), rfl, rfl, by simp, hlength, hpre⟩)

/-! ## The comparisons of a run -/

variable (C inMerkle)

abbrev topOf (results : List KVRead) : Nat × List Bytes :=
  top (tree C inMerkle.maxDegree results)

def RisesAt (part : List KVRead) (result : KVRead) : Prop :=
  (topOf C inMerkle part).1 = level inMerkle ∧
    (topOf C inMerkle (part ++ [result])).1 = level inMerkle + 1 ∧
    (topOf C inMerkle (part ++ [result])).2 ≠ [] ∧
    (topOf C inMerkle part).2.length = inMerkle.maxDegree ∧
    (topOf C inMerkle part).2 <+: inMerkle.maxLevelHashes

variable {C inMerkle}

section

variable (hdegree : 2 ≤ inMerkle.maxDegree)

include hdegree

section

variable (hsmall : inMerkle.maxDegree + 1 < 2 ^ 32)

include hsmall

theorem one_le_topOf (results : List KVRead) : 1 ≤ (topOf C inMerkle results).1 :=
  length_pos_iff.mpr (fed_tree (by omega) hsmall results).nonempty

theorem getMerkleSummary_feed (results : List KVRead) :
    (feed C (hashingHelper inMerkle.maxDegree) results).getMerkleSummary =
      some ⟨inMerkle.maxDegree, (topOf C inMerkle results).1, (topOf C inMerkle results).2⟩ := by
  rw [getMerkleSummary, (fed_tree (by omega) hsmall results).mt]
  rfl

theorem loop_feed_cons (seen results : List KVRead) (result : KVRead) (matched : Nat) :
    loop C inMerkle (feed C (hashingHelper inMerkle.maxDegree) seen) matched (result :: results) =
      match compare inMerkle ⟨inMerkle.maxDegree, (topOf C inMerkle (seen ++ [result])).1,
          (topOf C inMerkle (seen ++ [result])).2⟩ matched with
      | .error fault => .error fault
      | .ok none => .ok false
      | .ok (some matched) =>
        loop C inMerkle (feed C (hashingHelper inMerkle.maxDegree) (seen ++ [result])) matched
          results := by
  rw [loop, ← feed_concat, getMerkleSummary_feed hdegree hsmall]

theorem loop_cases (results : List KVRead)
    {seen} (hagrees : Agrees inMerkle (topOf C inMerkle seen) matched) :
    (loop C inMerkle (feed C (hashingHelper inMerkle.maxDegree) seen) matched results =
        .error (.panic "runtime error: index out of range") ∧
      ∃ part result, part ++ [result] <+: seen ++ results ∧ RisesAt C inMerkle part result) ∨
    (loop C inMerkle (feed C (hashingHelper inMerkle.maxDegree) seen) matched results = .ok false ∧
      ∃ part, part <+: seen ++ results ∧ Departs inMerkle (topOf C inMerkle part)) ∨
    (loop C inMerkle (feed C (hashingHelper inMerkle.maxDegree) seen) matched results =
        loop C inMerkle (feed C (hashingHelper inMerkle.maxDegree) (seen ++ results)) 0 [] ∧
      (topOf C inMerkle (seen ++ results)).1 ≤ level inMerkle) := by
  induction results generalizing seen matched with
  | nil =>
    rw [append_nil]
    refine .inr (.inr ⟨rfl, ?_⟩)
    rcases hagrees with ⟨hlt, -⟩ | ⟨heq, -⟩
    · exact le_of_lt hlt
    · exact le_of_eq heq
  | cons result results ih =>
    rw [loop_feed_cons hdegree hsmall, append_cons seen result results]
    rcases compare_grows hdegree (one_le_topOf hdegree hsmall seen) hagrees
      (grows_tree (by omega) hsmall seen result) with
      ⟨_, hcompare, hagrees'⟩ | ⟨hcompare, hdeparts⟩ | ⟨hcompare, hrises⟩
    · rw [hcompare]
      exact ih hagrees'
    · rw [hcompare]
      exact .inr (.inl ⟨rfl, _, prefix_append .., hdeparts⟩)
    · rw [hcompare]
      exact .inl ⟨rfl, seen, result, prefix_append .., hrises⟩

end

end

/-! ## Results that overtake the summary -/

/-- The first results make up as many blocks as the tree may have hashes at the recorded level,
with the recorded hashes, and one block more. -/
def Overtaken (C : Codec) (inMerkle : QueryReadsMerkleSummary) (results : List KVRead) : Prop :=
  inMerkle.maxDegree + 1 < 2 ^ 32 ∧ ∃ blocks next h, blocks.length = inMerkle.maxDegree ∧
    Forall₂ (IsBlock C inMerkle.maxDegree (level inMerkle)) blocks
      (inMerkle.maxLevelHashes.take inMerkle.maxDegree) ∧
    IsBlock C inMerkle.maxDegree (level inMerkle) next h ∧ blocks.flatten ++ next <+: results

theorem one_le_level (inMerkle : QueryReadsMerkleSummary) : 1 ≤ level inMerkle := le_max_right _ _

section

variable (hdegree : 2 ≤ inMerkle.maxDegree)

include hdegree

theorem exists_blocks (hsmall : inMerkle.maxDegree + 1 < 2 ^ 32) (results : List KVRead) : ∃ blocks,
      Forall₂ (IsBlock C inMerkle.maxDegree (topOf C inMerkle results).1) blocks
        (topOf C inMerkle results).2 ∧ blocks.flatten <+: results := by
  have hfed := fed_tree (C := C) (by omega) hsmall results
  obtain ⟨_, hresults, hcovers⟩ := hfed.covers
  obtain ⟨blocks, hblocks, hpre⟩ := hcovers.exists_top hfed.nonempty
  rw [zero_add] at hblocks
  exact ⟨blocks, hblocks, hpre.trans ⟨_, hresults.symm⟩⟩

theorem overtaken_of_risesAt (hsmall : inMerkle.maxDegree + 1 < 2 ^ 32) {result}
    (hpart : part ++ [result] <+: results) (hrises : RisesAt C inMerkle part result) :
    Overtaken C inMerkle results := by
  obtain ⟨hlevel, hlevel', hne, hlength, hrecorded⟩ := hrises
  obtain ⟨blocks, hblocks, hpre⟩ := exists_blocks hdegree hsmall part
  obtain ⟨_, habove, hpre'⟩ := exists_blocks hdegree hsmall (part ++ [result])
  rw [hlevel] at hblocks
  rw [hlevel', IsBlock, Nat.add_sub_cancel] at habove
  have hblocks_length : blocks.length = inMerkle.maxDegree := hblocks.length_eq.trans hlength
  obtain ⟨k, hk⟩ : ∃ k, level inMerkle = k + 1 := ⟨_, (Nat.sub_add_cancel (one_le_level _)).symm⟩
  rw [hk, IsBlock, Nat.add_sub_cancel] at hblocks
  rw [hk] at habove
  generalize (topOf C inMerkle (part ++ [result])).2 = hashes' at habove hne
  cases habove with
  | nil => exact absurd rfl hne
  | cons hblock _ =>
    obtain ⟨parts, _, _, hparts, rfl, -⟩ := hblock
    have hflatten : parts.flatten <+: results := ((prefix_append ..).trans hpre').trans hpart
    have htake : blocks = parts.take blocks.length :=
      eq_take_of_flatten_prefix
        (length_of_mem_blocks length_eq hblocks)
        (length_of_mem_blocks length_eq hparts)
        ((hpre.trans (prefix_append ..)).trans hpart) hflatten (by omega)
    obtain ⟨next, hnext⟩ : ∃ next, parts.drop blocks.length = [next] :=
      length_eq_one_iff.mp (by rw [length_drop]; omega)
    have hparts_eq : parts = blocks ++ [next] := by
      rw [← hnext]
      nth_rewrite 1 [htake]
      exact (take_append_drop ..).symm
    have hdrop := forall₂_drop blocks.length hparts
    rw [hnext] at hdrop
    obtain ⟨h, -, hh, -, -⟩ := forall₂_cons_left_iff.mp hdrop
    rw [hparts_eq, flatten_append, flatten_singleton] at hflatten
    have hhashes : inMerkle.maxLevelHashes.take inMerkle.maxDegree = (topOf C inMerkle part).2 := by
      rw [← hlength]
      exact (prefix_iff_eq_take.mp hrecorded).symm
    refine ⟨hsmall, blocks, next, h, hblocks_length, ?_, ?_, hflatten⟩
    · rw [hk, IsBlock, Nat.add_sub_cancel, hhashes]
      exact hblocks
    · rw [hk, IsBlock, Nat.add_sub_cancel]
      exact hh

theorem not_departs_of_overtaken (hpart : part <+: results) (h : Overtaken C inMerkle results) :
    ¬ Departs inMerkle (topOf C inMerkle part) := by
  obtain ⟨hsmall, blocks, _, -, _, hblocks, -, hpre⟩ := h
  rintro ⟨hlevel, hnot⟩
  obtain ⟨mine, hmine, hpre'⟩ := exists_blocks hdegree hsmall part
  rw [hlevel] at hmine
  have hle : mine.length ≤ inMerkle.maxDegree := by
    rw [hmine.length_eq]
    exact (fed_tree (by omega) hsmall part).bounded.top_le
  have htake : mine = blocks.take mine.length :=
    eq_take_of_flatten_prefix
      (length_of_mem_blocks length_eq hmine)
      (length_of_mem_blocks length_eq hblocks)
      (hpre'.trans hpart) ((prefix_append ..).trans hpre) (by omega)
  have hblocks' := forall₂_take mine.length hblocks
  rw [← htake] at hblocks'
  have hhashes := forall₂_unique hmine hblocks' fun _ _ _ hblock hblock' =>
    hblock.unique length_eq unique hblock'
  rw [hhashes] at hnot
  exact hnot ((List.take_prefix ..).trans (List.take_prefix ..))

theorem level_lt_of_overtaken (h : Overtaken C inMerkle results) :
    level inMerkle < (topOf C inMerkle results).1 := by
  obtain ⟨hsmall, blocks, next, h, hlength, hblocks, hnext, hpre⟩ := h
  have hall : (blocks ++ [next]).flatten.all (KVRead.isValid C) = true :=
    valid_of_blocks (rel_append hblocks (.cons hnext .nil))
  rw [flatten_append, flatten_singleton] at hall
  by_contra hnot
  have hfed := fed_tree (C := C) (by omega) hsmall results
  obtain ⟨covered, hresults, hcovers⟩ := hfed.covers
  obtain ⟨k, hk⟩ : ∃ k, level inMerkle = k + 1 := ⟨_, (Nat.sub_add_cancel (one_le_level _)).symm⟩
  rw [hk, IsBlock, Nat.add_sub_cancel] at hblocks hnext
  have hwhole : (blocks.flatten ++ next).length =
      (inMerkle.maxDegree + 1) * (inMerkle.maxDegree + 1) ^ level inMerkle := by
    rw [length_append, hnext.length_eq length_eq, length_flatten_of_forall
      (length_of_mem_blocks length_eq hblocks), hlength, hk]
    ring
  -- a forest of that height does not hold the first results
  have hcovered : covered.length + (inMerkle.maxDegree + 1) ≤ (blocks.flatten ++ next).length := by
    have hle := hcovers.length_le length_eq hfed.bounded
    rw [pow_zero, mul_one, zero_add] at hle
    rw [hwhole]
    exact hle.trans (Nat.mul_le_mul_left _
      (Nat.pow_le_pow_right (Nat.succ_pos _) (Nat.le_of_not_lt hnot)))
  -- and nothing invalid among them keeps the rest pending
  have hpending := hfed.pending_le (by
    rw [all_eq_true]
    intro _ hread
    apply all_eq_true.mp hall
    have htake : covered ++ (feed C (hashingHelper inMerkle.maxDegree) results).pendingResults.take
        (inMerkle.maxDegree + 1) <+: blocks.flatten ++ next := by
      refine prefix_of_prefix_length_le ?_ hpre ?_
      · nth_rewrite 2 [hresults]
        exact (prefix_append_right_inj covered).mpr (List.take_prefix ..)
      · rw [length_append]
        exact (Nat.add_le_add_left (length_take_le ..) _).trans hcovered
    exact htake.subset (mem_append_right _ hread))
  have hle := hpre.length_le
  have hlen := congrArg length hresults
  rw [length_append] at hlen
  omega

end

/-! ## The validation -/

theorem equal_eq_true_iff (merkle : Option QueryReadsMerkleSummary) :
    inMerkle.equal merkle = true ↔ merkle = some inMerkle := by
  cases merkle with
  | none => simp [QueryReadsMerkleSummary.equal]
  | some merkle =>
    obtain ⟨_, _, _⟩ := inMerkle
    obtain ⟨_, _, _⟩ := merkle
    simp only [QueryReadsMerkleSummary.equal, Bool.and_eq_true, beq_iff_eq, Option.some.injEq,
      QueryReadsMerkleSummary.mk.injEq]
    constructor
    · rintro ⟨⟨⟨rfl, rfl⟩, -⟩, rfl⟩
      exact ⟨rfl, rfl, rfl⟩
    · rintro ⟨rfl, rfl, rfl⟩
      exact ⟨⟨⟨rfl, rfl⟩, rfl⟩, rfl⟩

theorem loop_nil_eq_true_iff (helper) (matched : Nat) :
    loop C inMerkle helper matched [] = .ok true ↔
      ∃ pending, helper.done C = .ok (pending, some inMerkle) := by
  rw [loop]
  split
  next _ hdone => simp [hdone]
  next _ _ hdone => simp [hdone, equal_eq_true_iff]

theorem loop_nil_ne_panic (helper) (matched : Nat) (message : String) :
    loop C inMerkle helper matched [] ≠ .error (.panic message) := by
  rw [loop]
  split <;> simp

theorem validate_eq_loop (hdegree : 2 ≤ inMerkle.maxDegree) (results : List KVRead) :
    validate C inMerkle results =
      loop C inMerkle (feed C (hashingHelper inMerkle.maxDegree) []) 0 results := by
  rw [validate, init, new_true hdegree]
  rfl

theorem loop_of_degree_max (hdegree : ¬ inMerkle.maxDegree + 1 < 2 ^ 32)
    (seen results : List KVRead) :
    loop C inMerkle (feed C (hashingHelper inMerkle.maxDegree) seen) 0 results = .ok false := by
  induction results generalizing seen with
  | nil =>
    rw [loop, done, (feed_of_degree_max hdegree seen).1]
    rfl
  | cons _ _ ih =>
    rw [loop, ← feed_concat, getMerkleSummary, (feed_of_degree_max hdegree _).1]
    have hcompare : compare inMerkle
        (MerkleTree.getSummery { maxDegree := inMerkle.maxDegree }) 0 = .ok (some 0) := by
      unfold compare
      split
      · rfl
      · exact if_pos rfl
    rw [Option.map_some]
    simp only [hcompare]
    exact ih _

theorem agrees_start (inMerkle : QueryReadsMerkleSummary) :
    Agrees inMerkle (topOf C inMerkle []) 0 := by
  rcases lt_or_ge 1 (level inMerkle) with hlt | hge
  · exact .inl ⟨hlt, rfl⟩
  · exact .inr ⟨le_antisymm (one_le_level inMerkle) hge, rfl, nil_prefix⟩

section

variable (hdegree : 2 ≤ inMerkle.maxDegree)

include hdegree

theorem validate_panics_iff (results : List KVRead) :
    (∃ message, validate C inMerkle results = .error (.panic message)) ↔
      Overtaken C inMerkle results := by
  rw [validate_eq_loop hdegree]
  by_cases hsmall : inMerkle.maxDegree + 1 < 2 ^ 32
  · rcases loop_cases hdegree hsmall results (agrees_start inMerkle) with
      ⟨hloop, _, _, hpart, hrises⟩ | ⟨hloop, _, hpart, hdeparts⟩ | ⟨hloop, hle⟩
    · exact iff_of_true ⟨_, hloop⟩ (overtaken_of_risesAt hdegree hsmall hpart hrises)
    · rw [hloop]
      simp only [reduceCtorEq, exists_false, false_iff]
      exact fun h => not_departs_of_overtaken hdegree hpart h hdeparts
    · rw [hloop]
      simp only [loop_nil_ne_panic, exists_false, false_iff]
      exact fun h => not_lt.mpr hle (level_lt_of_overtaken hdegree h)
  · rw [loop_of_degree_max hsmall]
    simp only [reduceCtorEq, exists_false, false_iff]
    exact fun h => hsmall h.1

theorem done_ne_of_not_agrees
    (hsmall : inMerkle.maxDegree + 1 < 2 ^ 32) {pending} (hpart : part <+: results)
    (hnot : Departs inMerkle (topOf C inMerkle part) ∨
      level inMerkle < (topOf C inMerkle part).1) :
    (feed C (hashingHelper inMerkle.maxDegree) results).done C ≠ .ok (pending, some inMerkle) := by
  intro hdone
  have hprecedes : Precedes (topOf C inMerkle part)
      (inMerkle.maxLevel, inMerkle.maxLevelHashes) :=
    (precedes_tree (by omega) hsmall hpart).trans
      ((fed_tree (by omega) hsmall results).precedes_done (by omega) hsmall hdone).2
  have hlevel : inMerkle.maxLevel ≤ level inMerkle := le_max_left _ _
  rcases hprecedes with hlt | ⟨heq, hpre⟩
  · rcases hnot with hdeparts | habove
    · have := hdeparts.1
      omega
    · dsimp only at hlt
      omega
  · rcases hnot with hdeparts | _
    · exact hdeparts.2 hpre
    · dsimp only at heq
      omega

theorem validate_eq_true_iff (results : List KVRead) :
    validate C inMerkle results = .ok true ↔
      ∃ pending, queryResults C inMerkle.maxDegree results = .ok (pending, some inMerkle) := by
  simp only [queryResults_eq_some_iff hdegree]
  rw [validate_eq_loop hdegree]
  by_cases hsmall : inMerkle.maxDegree + 1 < 2 ^ 32
  · rcases loop_cases hdegree hsmall results (agrees_start inMerkle) with
      ⟨hloop, part, result, hpart, hrises⟩ | ⟨hloop, part, hpart, hdeparts⟩ | ⟨hloop, -⟩
    · have hnot : level inMerkle < (topOf C inMerkle (part ++ [result])).1 := by
        rw [hrises.2.1]
        exact lt_succ_self _
      simp only [hloop, reduceCtorEq, false_iff, not_exists]
      exact fun pending => done_ne_of_not_agrees hdegree hsmall hpart (.inr hnot)
    · simp only [hloop, Except.ok.injEq, Bool.false_eq_true, false_iff, not_exists]
      exact fun pending => done_ne_of_not_agrees hdegree hsmall hpart (.inl hdeparts)
    · rw [hloop, loop_nil_eq_true_iff]
      rfl
  · rw [loop_of_degree_max hsmall]
    simp only [Except.ok.injEq, Bool.false_eq_true, false_iff, not_exists]
    exact fun _ => done_of_degree_max hsmall

end

/-- The check of the results seen at validation time against those recorded at simulation time is
exact, unless they overtake the recorded summary. -/
theorem validate_exact_iff (C : Codec) {degree : Nat} (hdegree : 2 ≤ degree)
    {recordedResults pending : List KVRead} {recorded : QueryReadsMerkleSummary}
    (hrecorded : queryResults C degree recordedResults = .ok (pending, some recorded))
    (results : List KVRead) :
    ((∀ message, validate C recorded results ≠ .error (.panic message)) ∧
      (validate C recorded results = .ok true ↔
        ∃ pending', queryResults C degree results = .ok (pending', some recorded))) ↔
      ¬ Overtaken C recorded results := by
  have hmax : recorded.maxDegree = degree := maxDegree_of_queryResults hdegree hrecorded
  subst hmax
  rw [← validate_panics_iff hdegree, not_exists]
  exact and_iff_left (validate_eq_true_iff hdegree results)

def keysCodec : Codec where
  validString := fun _ => true
  marshalReads := fun reads => reads.flatMap KVRead.key
  hash := fun bytes => bytes.take 8

def firstReads (n : Nat) : List KVRead := (range n).map fun i => ⟨[i.toUInt8], some ⟨1, i⟩⟩

theorem validate_exact_iff_of_nine :
    queryResults keysCodec 2 (firstReads 9) = .ok ([], some ⟨2, 2, [[0, 1, 2, 3, 4, 5, 6, 7]]⟩) ∧
      (((∀ message, validate keysCodec ⟨2, 2, [[0, 1, 2, 3, 4, 5, 6, 7]]⟩ (firstReads 9) ≠
          .error (.panic message)) ∧
        (validate keysCodec ⟨2, 2, [[0, 1, 2, 3, 4, 5, 6, 7]]⟩ (firstReads 9) = .ok true ↔
          ∃ pending', queryResults keysCodec 2 (firstReads 9) =
            .ok (pending', some ⟨2, 2, [[0, 1, 2, 3, 4, 5, 6, 7]]⟩))) ↔
        ¬ Overtaken keysCodec ⟨2, 2, [[0, 1, 2, 3, 4, 5, 6, 7]]⟩ (firstReads 9)) :=
  have hrecorded : queryResults keysCodec 2 (firstReads 9) =
      .ok ([], some ⟨2, 2, [[0, 1, 2, 3, 4, 5, 6, 7]]⟩) := by decide +kernel
  ⟨hrecorded, validate_exact_iff keysCodec (by decide) hrecorded (firstReads 9)⟩

/-- Six results are recorded as two leaves; three more make the tree rise. -/
theorem validate_panics_of_nine :
    queryResults keysCodec 2 (firstReads 6) = .ok ([], some ⟨2, 1, [[0, 1, 2], [3, 4, 5]]⟩) ∧
      validate keysCodec ⟨2, 1, [[0, 1, 2], [3, 4, 5]]⟩ (firstReads 9) =
        .error (.panic "runtime error: index out of range") := by
  decide +kernel

end RangeQueryHashValidator

end Loki.Fabric
