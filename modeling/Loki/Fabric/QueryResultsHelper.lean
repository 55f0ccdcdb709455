import Loki.Foundation.HashForest
import Mathlib.Data.List.Induction

/-!
# The results of a range query

`rwsetutil/query_results_helper.go`: the results are collected, and hashed into a tree once there
are more of them than its degree.
-/

namespace Loki.Fabric

open Loki.Foundation List HashForest Nat Bool

abbrev Bytes := List UInt8

structure Height where
  blockNum : Nat
  txNum : Nat
  deriving DecidableEq, Repr

structure KVRead where
  key : Bytes
  version : Option Height
  deriving DecidableEq, Repr

/-- What is taken from the libraries for protocol buffers and for hashing. -/
structure Codec where
  validString : Bytes → Bool
  marshalReads : List KVRead → Bytes
  hash : Bytes → Bytes

/-- `uint32(len(xs))` -/
def len32 {α : Type} (xs : List α) : Nat := xs.length % 2 ^ 32

variable (C : Codec)

def KVRead.isValid (read : KVRead) : Bool := C.validString read.key

def serializeKVReads (reads : List KVRead) : Except String Bytes :=
  if reads.all (KVRead.isValid C) then .ok (C.marshalReads reads)
  else .error "proto: field \"kvrwset.KVRead.Key\" contains invalid UTF-8"

structure QueryReadsMerkleSummary where
  maxDegree : Nat
  maxLevel : Nat
  maxLevelHashes : List Bytes
  deriving DecidableEq, Repr

def computeCombinedHash (hashes : List Bytes) : Bytes := C.hash hashes.flatten

/-- The hashes of the levels from the first one, the leaf level, to `maxLevel`. -/
structure MerkleTree where
  maxDegree : Nat
  levels : List (List Bytes) := [[]]
  deriving DecidableEq, Repr

namespace MerkleTree

def new (maxDegree : Nat) : Except String MerkleTree :=
  if maxDegree < 2 then
    .error s!"maxDegree [{maxDegree}] should not be less than 2 in the merkle tree"
  else .ok { maxDegree := maxDegree }

variable (m : MerkleTree)

def maxLevel : Nat := m.levels.length

def getMaxLevelHashes : List Bytes := m.levels.getLast?.getD []

def isEmpty : Bool := m.maxLevel == 1 && m.getMaxLevelHashes.isEmpty

/-- The loop of `update` from one level on. -/
def addHash (maxDegree : Nat) (h : Bytes) : List (List Bytes) → List (List Bytes)
  | [] => [[h]]
  | hashes :: levels =>
    if len32 (hashes ++ [h]) ≤ maxDegree then (hashes ++ [h]) :: levels
    else [] :: addHash maxDegree (computeCombinedHash C (hashes ++ [h])) levels

def update (nextLeafLevelHash : Bytes) : MerkleTree :=
  { m with levels := addHash C m.maxDegree nextLeafLevelHash m.levels }

/-- The loop of `done`; `below` is what the level below leaves. -/
def complete (maxDegree : Nat) : List Bytes → List (List Bytes) → List (List Bytes)
  | below, [] => [below]
  | below, [finalHashes] =>
    if maxDegree < len32 (finalHashes ++ below) then
      [[], [computeCombinedHash C (finalHashes ++ below)]]
    else [finalHashes ++ below]
  | below, hashes :: next :: levels =>
    match hashes ++ below with
    | [] => [] :: complete maxDegree [] (next :: levels)
    | [h] => [] :: complete maxDegree [h] (next :: levels)
    | currentLevelHashes =>
      [] :: complete maxDegree [computeCombinedHash C currentLevelHashes] (next :: levels)

def done : MerkleTree := { m with levels := complete C m.maxDegree [] m.levels }

def getSummery : QueryReadsMerkleSummary where
  maxDegree := m.maxDegree
  maxLevel := m.maxLevel
  maxLevelHashes := m.getMaxLevelHashes

end MerkleTree

open MerkleTree (addHash complete update)

structure RangeQueryResultsHelper where
  pendingResults : List KVRead := []
  mt : Option MerkleTree
  maxDegree : Nat
  deriving DecidableEq, Repr

namespace RangeQueryResultsHelper

def new (enableHashing : Bool) (maxDegree : Nat) : Except String RangeQueryResultsHelper :=
  if enableHashing then do
    let mt ← MerkleTree.new maxDegree
    .ok { mt := some mt, maxDegree := maxDegree }
  else .ok { mt := none, maxDegree := maxDegree }

def processPendingResults (helper : RangeQueryResultsHelper) (mt : MerkleTree) :
    Except String RangeQueryResultsHelper := do
  let b ← serializeKVReads C helper.pendingResults
  .ok { helper with pendingResults := [], mt := some (mt.update C (C.hash b)) }

def addResult (helper : RangeQueryResultsHelper) (kvRead : KVRead) :
    RangeQueryResultsHelper × Except String Unit :=
  let helper := { helper with pendingResults := helper.pendingResults ++ [kvRead] }
  match helper.mt with
  | none => (helper, .ok ())
  | some mt =>
    if helper.maxDegree < len32 helper.pendingResults then
      match helper.processPendingResults C mt with
      | .ok helper => (helper, .ok ())
      | .error e => (helper, .error e)
    else (helper, .ok ())

def done (helper : RangeQueryResultsHelper) :
    Except String (List KVRead × Option QueryReadsMerkleSummary) :=
  match helper.mt with
  | none => .ok (helper.pendingResults, none)
  | some mt =>
    if mt.isEmpty then .ok (helper.pendingResults, none)
    else if helper.pendingResults ≠ [] then do
      let helper ← helper.processPendingResults C mt
      .ok (helper.pendingResults, helper.mt.map fun mt => (mt.done C).getSummery)
    else .ok (helper.pendingResults, some (mt.done C).getSummery)

def getMerkleSummary (helper : RangeQueryResultsHelper) : Option QueryReadsMerkleSummary :=
  helper.mt.map MerkleTree.getSummery

def addResults (helper : RangeQueryResultsHelper) :
    List KVRead → Except String RangeQueryResultsHelper
  | [] => .ok helper
  | kvRead :: kvReads =>
    match helper.addResult C kvRead with
    | (helper, .ok ()) => addResults helper kvReads
    | (_, .error e) => .error e

end RangeQueryResultsHelper

open RangeQueryResultsHelper

def queryResults (maxDegree : Nat) (kvReads : List KVRead) :
    Except String (List KVRead × Option QueryReadsMerkleSummary) := do
  let helper ← new true maxDegree
  let helper ← helper.addResults C kvReads
  helper.done C

/-! ## The tree of the helper -/

section Tree

variable {C : Codec} {degree : Nat} {levels : List (List Bytes)} {results pending : List KVRead}
  {helper helper' : RangeQueryResultsHelper} {merkle : QueryReadsMerkleSummary}

def IsLeaf (C : Codec) (degree : Nat) (reads : List KVRead) (h : Bytes) : Prop :=
  reads.length = degree + 1 ∧ reads.all (KVRead.isValid C) = true ∧
    h = C.hash (C.marshalReads reads)

abbrev IsBlock (C : Codec) (degree level : Nat) : List KVRead → Bytes → Prop :=
  Block degree (computeCombinedHash C) (IsLeaf C degree) (level - 1)

theorem IsLeaf.length_eq (reads : List KVRead) (h : Bytes) (hleaf : IsLeaf C degree reads h) :
    reads.length = degree + 1 :=
  hleaf.1

theorem IsLeaf.unique (reads : List KVRead) (h h' : Bytes) (hleaf : IsLeaf C degree reads h)
    (hleaf' : IsLeaf C degree reads h') : h = h' :=
  hleaf.2.2.trans hleaf'.2.2.symm

theorem valid_of_block {level reads h}
    (hblock : Block degree (computeCombinedHash C) (IsLeaf C degree) level reads h) :
    reads.all (KVRead.isValid C) = true := by
  induction level generalizing reads h with
  | zero => exact hblock.2.1
  | succ _ ih =>
    obtain ⟨_, _, -, hblocks, rfl, -⟩ := hblock
    rw [all_flatten, all_eq_true]
    exact forall_left_of_forall₂ (fun _ _ hblock => ih hblock) hblocks

theorem valid_of_blocks {level blocks hashes}
    (hblocks : Forall₂ (IsBlock C degree level) blocks hashes) :
    blocks.flatten.all (KVRead.isValid C) = true := by
  rw [all_flatten, all_eq_true]
  exact forall_left_of_forall₂ (fun _ _ hblock => valid_of_block hblock) hblocks

theorem addHash_eq_carry (hdegree : degree + 1 < 2 ^ 32)
    (hbounded : Bounded degree levels) (h : Bytes) :
    addHash C degree h levels = carry degree (computeCombinedHash C) h levels := by
  induction levels generalizing h with
  | nil => rfl
  | cons hashes _ ih =>
    have hle := hbounded hashes (mem_cons_self ..)
    have hlen : len32 (hashes ++ [h]) = (hashes ++ [h]).length := by
      rw [len32, length_append, length_singleton]
      exact mod_eq_of_lt (by omega)
    unfold addHash carry
    rw [hlen, ih fun other hother => hbounded other (mem_cons_of_mem _ hother)]
    by_cases hroom : (hashes ++ [h]).length ≤ degree
    · rw [if_pos hroom, if_neg (not_lt.mpr hroom)]
    · rw [if_neg hroom, if_pos (Nat.lt_of_not_le hroom)]

/-- The state of a helper that was given these results, errors ignored. -/
structure Fed (C : Codec) (degree : Nat) (results : List KVRead) (helper : RangeQueryResultsHelper)
    (levels : List (List Bytes)) : Prop where
  mt : helper.mt = some ⟨degree, levels⟩
  maxDegree : helper.maxDegree = degree
  covers : ∃ covered, results = covered ++ helper.pendingResults ∧
    Covers degree (computeCombinedHash C) (IsLeaf C degree) 0 levels covered
  bounded : Bounded degree levels
  nonempty : levels ≠ []
  pending_le : (helper.pendingResults.take (degree + 1)).all (KVRead.isValid C) = true →
    helper.pendingResults.length ≤ degree

theorem len32_append_singleton (hdegree : degree + 1 < 2 ^ 32) {α xs} (x : α)
    (hle : xs.length ≤ degree) : len32 (xs ++ [x]) = xs.length + 1 := by
  rw [len32, length_append, length_singleton]
  exact mod_eq_of_lt (by omega)

theorem Fed.addResult (hpos : 0 < degree) (hdegree : degree + 1 < 2 ^ 32)
    (h : Fed C degree results helper levels) (result : KVRead) :
    ∃ levels', Fed C degree (results ++ [result]) (helper.addResult C result).1 levels' ∧
      Grows degree (top levels) (top levels') := by
  obtain ⟨pending, _, maxDegree⟩ := helper
  obtain ⟨hmt, hmaxDegree, ⟨covered, hresults, hcovers⟩, hbounded, hne, hpending⟩ := h
  dsimp only at hmt hmaxDegree hresults hpending
  subst hmt hmaxDegree
  have hresults' : results ++ [result] = covered ++ (pending ++ [result]) := by
    rw [hresults, append_assoc]
  -- results that stay pending beyond the degree have an invalid one among the first
  have hpending' (hvalid : ((pending ++ [result]).take (maxDegree + 1)).all (KVRead.isValid C) =
      true) : pending.length ≤ maxDegree := by
    rw [take_append, all_append, and_eq_true] at hvalid
    exact hpending hvalid.1
  have hwhole (hvalid : ((pending ++ [result]).take (maxDegree + 1)).all (KVRead.isValid C) =
      true) : (pending ++ [result]).take (maxDegree + 1) = pending ++ [result] := by
    have hle := hpending' hvalid
    rw [take_of_length_le]
    simp only [length_append, length_singleton]
    omega
  unfold addResult
  dsimp only
  split
  case isFalse hlen =>
    refine ⟨levels, ⟨rfl, rfl, ⟨covered, hresults', hcovers⟩, hbounded, hne, fun hvalid => ?_⟩,
      .same _⟩
    rw [len32_append_singleton hdegree _ (hpending' hvalid)] at hlen
    simp only [length_append, length_singleton]
    omega
  next hlen =>
    unfold processPendingResults serializeKVReads
    by_cases hvalid : (pending ++ [result]).all (KVRead.isValid C) = true
    · have hle : pending.length ≤ maxDegree := hpending' (all_eq_true.mpr fun read hread =>
        all_eq_true.mp hvalid read (mem_of_mem_take hread))
      rw [len32_append_singleton hdegree _ hle] at hlen
      have hlength : (pending ++ [result]).length = maxDegree + 1 := by
        simp only [length_append, length_singleton]
        omega
      have hleaf : IsLeaf C maxDegree (pending ++ [result])
          (C.hash (C.marshalReads (pending ++ [result]))) := ⟨hlength, hvalid, rfl⟩
      simp only [hvalid, if_true, bind, Except.bind, update, addHash_eq_carry hdegree hbounded]
      have hgrows : Grows maxDegree (top levels) (top
          (carry maxDegree (computeCombinedHash C)
            (C.hash (C.marshalReads (pending ++ [result]))) levels)) :=
        grows_carry hbounded hne
      refine ⟨_, ⟨rfl, rfl, ⟨_, by simpa using hresults', ?_⟩, ?_, ?_, by simp⟩, hgrows⟩
      · exact covers_carry hbounded hcovers hleaf
      · exact bounded_carry hpos hbounded
      · exact carry_ne_nil
    · simp only [hvalid, false_eq_true, if_false, bind, Except.bind]
      exact ⟨levels, ⟨rfl, rfl, ⟨covered, hresults', hcovers⟩, hbounded, hne,
        fun h => absurd (hwhole h ▸ h) hvalid⟩, .same _⟩

/-! ### The end of the collection -/

theorem complete_ne_nil (below : List Bytes) (levels : List (List Bytes)) :
    complete C degree below levels ≠ [] := by
  unfold complete
  split
  · simp
  · split <;> simp
  · split <;> simp

/-- At most one hash is left over by a level. -/
theorem precedes_complete (hdegree : degree + 1 < 2 ^ 32) {below}
    (hbounded : Bounded degree levels) (hne : levels ≠ []) (hbelow : below.length ≤ 1) :
    Precedes (top levels) (top (complete C degree below levels)) := by
  induction levels generalizing below with
  | nil => exact absurd rfl hne
  | cons hashes levels ih =>
    have hle := hbounded hashes (mem_cons_self ..)
    rcases levels with _ | ⟨next, levels⟩
    · have hlen : len32 (hashes ++ below) = hashes.length + below.length := by
        rw [len32, length_append]
        exact mod_eq_of_lt (by omega)
      rw [complete, hlen]
      split
      · exact .inl (by simp [top])
      · exact .inr ⟨rfl, by simp [top]⟩
    · have hrest below (hbelow : below.length ≤ 1) :
          Precedes (top (hashes :: next :: levels))
            (top ([] :: complete C degree below (next :: levels))) := by
        rw [top_cons _ (cons_ne_nil _ _), top_cons _ (complete_ne_nil _ _)]
        rcases ih (fun other hother => hbounded other (mem_cons_of_mem _ hother))
          (cons_ne_nil _ _) hbelow with hlt | ⟨heq, hpre⟩
        · exact .inl (succ_lt_succ hlt)
        · exact .inr ⟨congrArg (· + 1) heq, hpre⟩
      rw [complete]
      split
      · exact hrest [] (by simp)
      · exact hrest _ (by simp)
      · exact hrest _ (by simp)

theorem getSummery_eq (levels : List (List Bytes)) :
    MerkleTree.getSummery ⟨degree, levels⟩ = ⟨degree, (top levels).1, (top levels).2⟩ := rfl

theorem Fed.precedes_done (hpos : 0 < degree) (hdegree : degree + 1 < 2 ^ 32)
    (h : Fed C degree results helper levels) (hdone : helper.done C = .ok (pending, some merkle)) :
    merkle.maxDegree = degree ∧ Precedes (top levels) (merkle.maxLevel, merkle.maxLevelHashes) := by
  unfold done at hdone
  simp only [h.mt] at hdone
  split at hdone
  · simp at hdone
  · split at hdone
    · unfold processPendingResults serializeKVReads at hdone
      split at hdone
      · simp only [bind, Except.bind, Option.map_some, Except.ok.injEq, Prod.mk.injEq,
          Option.some.injEq, update, MerkleTree.done, getSummery_eq,
          addHash_eq_carry hdegree h.bounded] at hdone
        obtain ⟨-, rfl⟩ := hdone
        exact ⟨rfl, (grows_carry h.bounded h.nonempty).precedes.trans
          (precedes_complete hdegree (bounded_carry hpos h.bounded)
            carry_ne_nil (by simp))⟩
      · simp [bind, Except.bind] at hdone
    · simp only [MerkleTree.done, getSummery_eq, Except.ok.injEq, Prod.mk.injEq,
        Option.some.injEq] at hdone
      obtain ⟨-, rfl⟩ := hdone
      exact ⟨rfl, precedes_complete hdegree h.bounded h.nonempty (by simp)⟩

def hashingHelper (degree : Nat) : RangeQueryResultsHelper where
  mt := some { maxDegree := degree }
  maxDegree := degree

theorem new_true (hle : 2 ≤ degree) : new true degree = .ok (hashingHelper degree) := by
  simp [new, MerkleTree.new, not_lt.mpr hle, bind, Except.bind, hashingHelper]

theorem Fed.new (degree : Nat) : Fed C degree [] (hashingHelper degree) [[]] where
  mt := rfl
  maxDegree := rfl
  covers := ⟨[], rfl, [], [], rfl, .nil, rfl⟩
  bounded := by simp [Bounded]
  nonempty := by simp
  pending_le := by simp [hashingHelper]

def feed (C : Codec) (helper : RangeQueryResultsHelper) (results : List KVRead) :
    RangeQueryResultsHelper :=
  results.foldl (fun helper result => (helper.addResult C result).1) helper

theorem feed_cons (helper) (result : KVRead) (results : List KVRead) :
    feed C helper (result :: results) = feed C (helper.addResult C result).1 results := rfl

theorem feed_concat (helper) (results : List KVRead) (result : KVRead) :
    feed C helper (results ++ [result]) = ((feed C helper results).addResult C result).1 := by
  rw [feed, foldl_append]
  rfl

def tree (C : Codec) (degree : Nat) (results : List KVRead) : List (List Bytes) :=
  ((feed C (hashingHelper degree) results).mt.map MerkleTree.levels).getD []

theorem Fed.eq_tree {results'}
    (h : Fed C degree results (feed C (hashingHelper degree) results') levels) :
    levels = tree C degree results' := by
  rw [tree, h.mt]
  rfl

section

variable (hpos : 0 < degree) (hdegree : degree + 1 < 2 ^ 32)

include hpos hdegree

theorem fed_tree (results : List KVRead) :
    Fed C degree results (feed C (hashingHelper degree) results) (tree C degree results) := by
  induction results using reverseRecOn with
  | nil => exact Fed.new degree
  | append_singleton _ result ih =>
    obtain ⟨_, hfed, -⟩ := ih.addResult hpos hdegree result
    rw [← feed_concat] at hfed
    exact hfed.eq_tree ▸ hfed

theorem grows_tree (results : List KVRead)
    (result : KVRead) : Grows degree (top (tree C degree results))
      (top (tree C degree (results ++ [result]))) := by
  obtain ⟨_, hfed, hgrows⟩ := (fed_tree hpos hdegree results).addResult hpos hdegree result
  rw [← feed_concat] at hfed
  exact hfed.eq_tree ▸ hgrows

theorem precedes_tree {part} (hpart : part <+: results) :
    Precedes (top (tree C degree part)) (top (tree C degree results)) := by
  obtain ⟨rest, rfl⟩ := hpart
  induction rest using reverseRecOn with
  | nil =>
    rw [append_nil]
    exact .refl _
  | append_singleton _ result ih =>
    rw [← append_assoc]
    exact ih.trans (grows_tree hpos hdegree _ result).precedes

end

theorem feed_of_degree_max (hdegree : ¬ degree + 1 < 2 ^ 32) (results : List KVRead) :
    (feed C (hashingHelper degree) results).mt = some { maxDegree := degree } ∧
      (feed C (hashingHelper degree) results).maxDegree = degree := by
  induction results using reverseRecOn with
  | nil => exact ⟨rfl, rfl⟩
  | append_singleton results result ih =>
    rw [feed_concat]
    generalize feed C (hashingHelper degree) results = helper at ih
    have hnot : ¬ helper.maxDegree < len32 (helper.pendingResults ++ [result]) := by
      have hlt : len32 (helper.pendingResults ++ [result]) < 2 ^ 32 := mod_lt _ (by decide)
      omega
    unfold addResult
    simp only [ih.1, if_neg hnot]
    exact ⟨trivial, ih.2⟩

theorem done_of_degree_max (hdegree : ¬ degree + 1 < 2 ^ 32) :
    (feed C (hashingHelper degree) results).done C ≠ .ok (pending, some merkle) := by
  rw [done, (feed_of_degree_max hdegree results).1]
  simp [MerkleTree.isEmpty, MerkleTree.maxLevel, MerkleTree.getMaxLevelHashes]

/-! ### Errors -/

theorem addResults_ok (h : helper.addResults C results = .ok helper') :
    helper' = feed C helper results := by
  induction results generalizing helper with
  | nil =>
    rw [addResults, Except.ok.injEq] at h
    exact h.symm
  | cons result _ ih =>
    rw [addResults] at h
    rw [feed_cons]
    generalize helper.addResult C result = added at h ⊢
    match added, h with
    | (_, .ok ()), h => exact ih h

/-- A helper that has something invalid, or that fails, keeps it. -/
theorem stuck_addResult (result : KVRead)
    (h : helper.pendingResults.all (KVRead.isValid C) = false ∨
      (helper.addResult C result).2 ≠ .ok ()) :
    (helper.addResult C result).1.pendingResults.all (KVRead.isValid C) = false := by
  unfold addResult processPendingResults serializeKVReads at h ⊢
  by_cases hvalid : (helper.pendingResults ++ [result]).all (KVRead.isValid C) = true
  · -- nothing fails, and nothing was invalid before
    simp only [hvalid, if_true, bind, Except.bind] at h
    rw [all_append] at hvalid
    grind
  · simp only [hvalid, false_eq_true, if_false, bind, Except.bind]
    split
    · exact eq_false_iff.mpr hvalid
    · split <;> exact eq_false_iff.mpr hvalid

theorem stuck_feed (h : helper.pendingResults.all (KVRead.isValid C) = false) :
    (feed C helper results).pendingResults.all (KVRead.isValid C) = false := by
  induction results generalizing helper with
  | nil => exact h
  | cons result _ ih => exact ih (stuck_addResult result (.inl h))

theorem addResults_error {e} (h : helper.addResults C results = .error e) :
    (feed C helper results).pendingResults.all (KVRead.isValid C) = false := by
  induction results generalizing helper with
  | nil => simp [addResults] at h
  | cons result _ ih =>
    rw [addResults] at h
    rw [feed_cons]
    by_cases hadded : (helper.addResult C result).2 = .ok ()
    · generalize helper.addResult C result = added at h hadded ⊢
      obtain ⟨_, _⟩ := added
      subst hadded
      exact ih h
    · exact stuck_feed (stuck_addResult result (.inr hadded))

theorem done_of_stuck (h : helper.pendingResults.all (KVRead.isValid C) = false) :
    helper.done C ≠ .ok (pending, some merkle) := by
  intro hdone
  unfold done processPendingResults
    serializeKVReads at hdone
  split at hdone
  · simp at hdone
  · split at hdone
    · simp at hdone
    · split at hdone
      · simp [h, bind, Except.bind] at hdone
      next hempty =>
        rw [not_not.mp hempty] at h
        simp at h

theorem queryResults_eq_some_iff (hle : 2 ≤ degree) :
    queryResults C degree results = .ok (pending, some merkle) ↔
      (feed C (hashingHelper degree) results).done C = .ok (pending, some merkle) := by
  rw [queryResults, new_true hle]
  simp only [bind, Except.bind]
  cases hadded : (hashingHelper degree).addResults C results with
  | ok => rw [addResults_ok hadded]
  | error =>
    have hstuck := addResults_error hadded
    simp only [reduceCtorEq, false_iff]
    exact done_of_stuck hstuck

theorem maxDegree_of_queryResults (hle : 2 ≤ degree)
    (h : queryResults C degree results = .ok (pending, some merkle)) :
    merkle.maxDegree = degree := by
  rw [queryResults_eq_some_iff hle] at h
  by_cases hsmall : degree + 1 < 2 ^ 32
  · exact ((fed_tree (by omega) hsmall results).precedes_done (by omega) hsmall h).1
  · exact absurd h (done_of_degree_max hsmall)

end Tree

end Loki.Fabric
