import Mathlib.Data.Nat.Bits
import Loki.Diem.Types
import Loki.Foundation.Call

/-!
# The in-memory transaction accumulator

`types/src/proof/accumulator/mod.rs` and the accumulator summary of
`types/src/proof/definition.rs`.  An accumulator over `n` leaves is the list of the roots of its
full subtrees, one for each bit set in `n`, from the largest subtree to the smallest.

The loops of the source pop from and push to the end of that list, so they are written here over
the reversed list.  Each `while` loop consumes a subtree or a frozen root in every iteration and
is recursive in that list; the loop over the bits of the leaf count is recursive in the bits.
-/

namespace Loki.Diem

open Loki.Foundation

structure InMemoryAccumulator where
  frozenSubtreeRoots : List HashValue
  numLeaves : Nat
  rootHash : HashValue
  deriving DecidableEq, Repr

def maxAccumulatorLeaves : Nat := 2 ^ 63

def countOnes (n : Nat) : Nat := (Nat.bits n).count true

def trailingZeros (n : Nat) : Nat :=
  if n = 0 then 64 else ((Nat.bits n).takeWhile (!·)).length

def trailingOnes (n : Nat) : Nat := ((Nat.bits n).takeWhile id).length

variable (C : Crypto)

/-- `MerkleTreeInternalNode::new(left, right).hash()`. -/
def internalNodeHash (left right : HashValue) : HashValue :=
  C.hash (.transactionAccumulatorNode left right)

namespace InMemoryAccumulator

/-- The loop of `compute_root_hash`, over the bits of the leaf count from the lowest one up and
the frozen roots from the right. -/
def foldBits : List Bool → List HashValue → HashValue → Outcome HashValue
  | [], _, current => .ok current
  | true :: _, [], _ => .error (.panic "This frozen subtree should exist.")
  | true :: bits, root :: roots, current => foldBits bits roots (internalNodeHash C root current)
  | false :: bits, roots, current =>
    foldBits bits roots (internalNodeHash C current accumulatorPlaceholderHash)

variable (roots : List HashValue) (numLeaves : Nat)

def computeRootHash : Outcome HashValue :=
  match roots with
  | [] => .ok accumulatorPlaceholderHash
  | [root] => .ok root
  | _ =>
    foldBits C (Nat.bits (numLeaves / 2 ^ trailingZeros numLeaves)) roots.reverse
      accumulatorPlaceholderHash

def new : Outcome InMemoryAccumulator := do
  ensure (roots.length = countOnes numLeaves) (.error
    s!"The number of frozen subtrees does not match the number of leaves. frozen_subtree_roots.len(): {roots.length}. num_leaves: {numLeaves}.")
  let rootHash ← computeRootHash C roots numLeaves
  return { frozenSubtreeRoots := roots, numLeaves := numLeaves, rootHash := rootHash }

/-- The carry loop of `append_one`, on the reversed roots. -/
def mergeTrailing : Nat → List HashValue → Outcome (List HashValue)
  | 0, roots => .ok roots
  | carries + 1, right :: left :: roots =>
    mergeTrailing carries (internalNodeHash C left right :: roots)
  | _ + 1, _ => .error (.panic "Invalid accumulator.")

def appendOne (roots : List HashValue) (numExistingLeaves : Nat) (leaf : HashValue) :
    Outcome (List HashValue) :=
  mergeTrailing C (trailingOnes numExistingLeaves) (leaf :: roots)

/-- The loop of `append`, on the reversed roots. -/
def appendLoop : List HashValue → List HashValue → Nat →
    Outcome (List HashValue × Nat)
  | [], roots, numLeaves => .ok (roots, numLeaves)
  | leaf :: leaves, roots, numLeaves => do
    let roots ← appendOne C roots numLeaves leaf
    appendLoop leaves roots ((numLeaves + 1) % u64Bound)

def append (acc : InMemoryAccumulator) (leaves : List HashValue) : Outcome InMemoryAccumulator := do
  let (roots, numLeaves) ← appendLoop C leaves acc.frozenSubtreeRoots.reverse acc.numLeaves
  mapErr (fun _ => .panic
      "Appending leaves to a valid accumulator should create another valid accumulator.")
    (new C roots.reverse numLeaves)

/-- The inner loop of `append_subtrees`: carry a new subtree into the frozen ones. -/
def carrySubtree (numLeaves : Nat) : List HashValue → Nat → HashValue →
    Outcome (List HashValue × Nat × HashValue)
  | [], mask, current =>
    if numLeaves &&& mask = 0 then .ok ([], mask, current)
    else .error (.panic "This frozen subtree must exist.")
  | left :: roots, mask, current =>
    if numLeaves &&& mask = 0 then .ok (left :: roots, mask, current)
    else carrySubtree numLeaves roots (mask * 2 % u64Bound) (internalNodeHash C left current)

/-- The outer loop of `append_subtrees`; what is left of the subtrees is appended after it. -/
def appendSubtreesLoop : List HashValue → List HashValue → Nat → Nat → Nat →
    Outcome (List HashValue × Nat × List HashValue)
  | subtrees, roots, numLeaves, remaining, rightmost =>
    if remaining < rightmost then
      .ok (roots, (numLeaves + remaining) % u64Bound, subtrees)
    else
      match subtrees with
      | [] => .error (.error "Too few subtrees.")
      | subtree :: subtrees => do
        let (roots, mask, current) ← carrySubtree C numLeaves roots rightmost subtree
        appendSubtreesLoop subtrees (current :: roots)
          ((numLeaves + rightmost) % u64Bound) (remaining - rightmost) mask

def appendSubtrees (acc : InMemoryAccumulator) (subtrees : List HashValue)
    (numNewLeaves : Nat) : Outcome InMemoryAccumulator := do
  ensure (numNewLeaves ≤ (maxAccumulatorLeaves + u64Bound - acc.numLeaves) % u64Bound) (.error
    s!"Too many new leaves. self.num_leaves: {acc.numLeaves}. num_new_leaves: {numNewLeaves}.")
  if acc.numLeaves = 0 then
    new C subtrees numNewLeaves
  else
    let (roots, numLeaves, rest) ← appendSubtreesLoop C subtrees acc.frozenSubtreeRoots.reverse
      acc.numLeaves numNewLeaves (2 ^ trailingZeros acc.numLeaves)
    new C (roots.reverse ++ rest) numLeaves

def version (acc : InMemoryAccumulator) : Nat :=
  if acc.numLeaves = 0 then 0 else acc.numLeaves - 1

end InMemoryAccumulator

/-- `AccumulatorExtensionProof::verify`. -/
def AccumulatorExtensionProof.verify (proof : AccumulatorExtensionProof)
    (originalRoot : HashValue) : Outcome InMemoryAccumulator := do
  let originalTree ← InMemoryAccumulator.new C proof.frozenSubtreeRoots proof.numLeaves
  ensure (originalTree.rootHash = originalRoot) (.error
    s!"Root hashes do not match. Actual root hash: {originalTree.rootHash}. Expected root hash: {originalRoot}.")
  originalTree.append C proof.leaves

abbrev TransactionAccumulatorSummary := InMemoryAccumulator

structure AccumulatorConsistencyProof where
  subtrees : List HashValue
  deriving DecidableEq, Repr

namespace TransactionAccumulatorSummary

variable (acc : TransactionAccumulatorSummary)

def verifyConsistency (li : LedgerInfo) : Except String Unit := do
  ensure (li.commitInfo.version = acc.version)
    s!"ledger info and accumulator must be at the same version: ledger info version={li.commitInfo.version}, accumulator version={acc.version}"
  ensure (li.commitInfo.executedStateId = acc.rootHash)
    s!"ledger info root hash and accumulator root hash must match: ledger info root hash={li.commitInfo.executedStateId}, accumulator root hash={acc.rootHash}"

def tryExtendWithProof (consistencyProof : AccumulatorConsistencyProof) (targetLi : LedgerInfo) :
    Outcome TransactionAccumulatorSummary := do
  ensure (acc.version ≤ targetLi.commitInfo.version) (.error
    s!"target ledger info version ({targetLi.commitInfo.version}) must be newer than our current accumulator summary version ({acc.version})")
  let extended ← acc.appendSubtrees C consistencyProof.subtrees
    (targetLi.commitInfo.version - acc.version)
  mapErr (fun _ => .error "accumulator is not consistent with the target ledger info after applying consistency proof")
    (verifyConsistency extended targetLi)
  return extended

def AgreesWith (li : LedgerInfo) : Prop :=
  acc.version = li.commitInfo.version ∧ acc.rootHash = li.commitInfo.executedStateId

theorem verifyConsistency_eq_ok {acc li} :
    verifyConsistency acc li = .ok () ↔ AgreesWith acc li := by
  simp only [verifyConsistency, bind_eq_ok, ensure_eq_ok, AgreesWith]
  constructor
  · rintro ⟨_, hversion, hroot⟩
    exact ⟨hversion.symm, hroot.symm⟩
  · rintro ⟨hversion, hroot⟩
    exact ⟨(), hversion.symm, hroot.symm⟩

theorem tryExtendWithProof_spec {C acc extended proof li}
    (h : tryExtendWithProof C acc proof li = .ok extended) :
    acc.version ≤ li.commitInfo.version ∧ AgreesWith extended li := by
  simp only [tryExtendWithProof, bind_eq_ok, ensure_eq_ok, mapErr_eq_ok, pure_eq_ok] at h
  obtain ⟨_, hversion, _, -, _, hconsistent, rfl⟩ := h
  exact ⟨hversion, verifyConsistency_eq_ok.mp hconsistent⟩

end TransactionAccumulatorSummary

end Loki.Diem
