import Loki.Diem.AccumulatorTree
import Loki.Diem.IdealCrypto

/-!
# Proofs about an accumulator

`AccumulatorProof`, `AccumulatorRangeProof`, `EventProof` and `TransactionListProof` of
`types/src/proof/definition.rs`.  A proof holds the hashes that are missing on the way from some
leaves to the root; `verify` climbs from the leaves along the bits of an index and compares the
hash it arrives at.

No verifier compares the index with the number of leaves.  The bits above the height of the tree
are never looked at, so that an accepted proof is one for the index modulo the width of the tree.
-/

namespace Loki.Diem

open Loki.Foundation MerkleTree List TransactionInfo

def maxAccumulatorProofDepth : Nat := 63

/-- The type parameter `H` of the accumulators. -/
inductive AccumulatorHasher where
  | transactionAccumulator
  | eventAccumulator
  deriving DecidableEq, Repr

/-- `MerkleTreeInternalNode::<H>::new(left, right).hash()`. -/
def AccumulatorHasher.node (C : Crypto) : AccumulatorHasher → HashValue → HashValue → HashValue
  | .transactionAccumulator => internalNodeHash C
  | .eventAccumulator => fun left right => C.hash (.eventAccumulatorNode left right)

structure AccumulatorProof where
  siblings : List HashValue
  deriving DecidableEq, Repr

structure AccumulatorRangeProof where
  leftSiblings : List HashValue
  rightSiblings : List HashValue
  deriving DecidableEq, Repr

section

variable (node : HashValue → HashValue → HashValue)

/-- One step of the fold: `current` is a hash and the index of its node on its level. -/
def AccumulatorProof.climb (current : HashValue × Nat) (siblingHash : HashValue) :
    HashValue × Nat :=
  (if current.2 % 2 = 0 then node current.1 siblingHash else node siblingHash current.1,
    current.2 / 2)

def AccumulatorProof.verify (proof : AccumulatorProof)
    (expectedRootHash elementHash : HashValue) (elementIndex : Nat) : Outcome Unit := do
  ensure (proof.siblings.length ≤ maxAccumulatorProofDepth) (.error
    s!"Accumulator proof has more than {maxAccumulatorProofDepth} ({proof.siblings.length}) siblings.")
  let actualRootHash := (proof.siblings.foldl (climb node) (elementHash, elementIndex)).1
  ensure (actualRootHash = expectedRootHash) (.error
    s!"Root hashes do not match. Actual root hash: {actualRootHash}. Expected root hash: {expectedRootHash}.")

namespace AccumulatorRangeProof

/-- The hashes of one level, of which there is always a first, and the siblings not used yet. -/
structure Level where
  first : HashValue
  rest : List HashValue
  leftSiblings : List HashValue
  rightSiblings : List HashValue
  deriving DecidableEq, Repr

def Level.size (l : Level) : Nat := l.rest.length + l.leftSiblings.length + l.rightSiblings.length

/-- The parents of the hashes that are left when the first one is a left child, two children at a
time.  The last one may need a sibling on the right. -/
def pairUp : List HashValue → List HashValue →
    Outcome (List HashValue × List HashValue)
  | [], rightSiblings => .ok ([], rightSiblings)
  | [_], [] => .error (.error "Last child is a left child, but missing sibling on the right.")
  | [left], right :: rightSiblings => .ok ([node left right], rightSiblings)
  | left :: right :: rest, rightSiblings => do
    let (parents, rightSiblings) ← pairUp rest rightSiblings
    return (node left right :: parents, rightSiblings)

/-- The body of the loop of `verify`. -/
def combineLevel (isRightChild : Bool) (l : Level) : Outcome Level :=
  if isRightChild then
    match l.leftSiblings with
    | [] => .error (.error "First child is a right child, but missing sibling on the left.")
    | left :: leftSiblings => do
      let (parents, rightSiblings) ← pairUp node l.rest l.rightSiblings
      return ⟨node left l.first, parents, leftSiblings, rightSiblings⟩
  else
    match l.rest, l.rightSiblings with
    | [], [] => .error (.error "Last child is a left child, but missing sibling on the right.")
    | [], right :: rightSiblings => .ok ⟨node l.first right, [], l.leftSiblings, rightSiblings⟩
    | right :: rest, rightSiblings => do
      let (parents, rightSiblings) ← pairUp node rest rightSiblings
      return ⟨node l.first right, parents, l.leftSiblings, rightSiblings⟩

variable {node} {isRightChild : Bool}

theorem pairUp_length {hashes rightSiblings parents rightSiblings' : List HashValue}
    (h : pairUp node hashes rightSiblings = .ok (parents, rightSiblings')) :
    hashes.length + rightSiblings.length = 2 * parents.length + rightSiblings'.length := by
  fun_induction pairUp node hashes rightSiblings generalizing parents rightSiblings' with
  | case1 =>
    cases h
    simp
  | case2 => simp at h
  | case3 =>
    cases h
    simp only [length_cons, length_nil]
    omega
  | case4 left right rest rightSiblings ih =>
    simp only [bind_eq_ok, pure_eq_ok, Prod.exists, Prod.mk.injEq] at h
    obtain ⟨_, _, hpairs, rfl, rfl⟩ := h
    have := ih hpairs
    simp only [length_cons]
    omega

/-- All hashes of a level are paired up, after a left sibling when the first of them is a right
child. -/
theorem combineLevel_spec {l l' : Level} (h : combineLevel node isRightChild l = .ok l') :
    ∃ lefts, lefts.length = isRightChild.toNat ∧ l.leftSiblings = lefts ++ l'.leftSiblings ∧
      pairUp node (lefts ++ l.first :: l.rest) l.rightSiblings =
        .ok (l'.first :: l'.rest, l'.rightSiblings) := by
  obtain ⟨_, rest, leftSiblings, rightSiblings⟩ := l
  cases isRightChild with
  | true =>
    cases leftSiblings with
    | nil => simp [combineLevel] at h
    | cons left =>
      simp only [combineLevel, if_true, bind_eq_ok, pure_eq_ok, Prod.exists] at h
      obtain ⟨_, _, hpairs, rfl⟩ := h
      exact ⟨[left], rfl, rfl, bind_eq_ok.mpr ⟨_, hpairs, rfl⟩⟩
  | false =>
    simp only [combineLevel, Bool.false_eq_true, if_false] at h
    refine ⟨[], rfl, ?_⟩
    split at h
    · cases h
    · cases h
      exact ⟨rfl, rfl⟩
    · simp only [bind_eq_ok, pure_eq_ok, Prod.exists] at h
      obtain ⟨_, _, hpairs, rfl⟩ := h
      exact ⟨rfl, bind_eq_ok.mpr ⟨_, hpairs, rfl⟩⟩

theorem combineLevel_size_lt {l l' : Level} (h : combineLevel node isRightChild l = .ok l') :
    l'.size < l.size := by
  obtain ⟨lefts, -, hleft, hpairs⟩ := combineLevel_spec h
  have hlength := pairUp_length hpairs
  simp only [length_append, length_cons] at hlength
  simp only [Level.size, hleft, length_append]
  omega

variable (node)

/-- The loop of `verify`: one level after the other, until one hash and no sibling is left. -/
def reduceLevels (firstPos : Position) (l : Level) : Outcome HashValue :=
  if l.size = 0 then .ok l.first
  else
    match _h : combineLevel node firstPos.isRightChild l with
    | .error e => .error e
    | .ok l' => reduceLevels firstPos.parent l'
termination_by l.size
decreasing_by exact combineLevel_size_lt _h

def verify (proof : AccumulatorRangeProof) (expectedRootHash : HashValue)
    (firstLeafIndex : Option Nat) (leafHashes : List HashValue) : Outcome Unit :=
  match firstLeafIndex with
  | none => do
    ensure (leafHashes.isEmpty) (.error
      "first_leaf_index indicated empty list while leaf_hashes is not empty.")
    ensure (proof.leftSiblings.isEmpty ∧ proof.rightSiblings.isEmpty) (.error
      "No siblings are needed.")
  | some first => do
    ensure (proof.leftSiblings.length ≤ maxAccumulatorProofDepth) (.error
      s!"Proof has more than {maxAccumulatorProofDepth} ({proof.leftSiblings.length}) left siblings.")
    ensure (proof.rightSiblings.length ≤ maxAccumulatorProofDepth) (.error
      s!"Proof has more than {maxAccumulatorProofDepth} ({proof.rightSiblings.length}) right siblings.")
    match leafHashes with
    | [] => .error (.error
        "leaf_hashes is empty while first_leaf_index indicated non-empty list.")
    | hash :: rest => do
      let actualRootHash ← reduceLevels node (.fromLeafIndex (.ofNat 64 first))
        ⟨hash, rest, proof.leftSiblings, proof.rightSiblings⟩
      ensure (actualRootHash = expectedRootHash) (.error
        s!"Root hashes do not match. Actual root hash: {actualRootHash}. Expected root hash: {expectedRootHash}.")

end AccumulatorRangeProof

end

structure TransactionInfoWithProof where
  ledgerInfoToTransactionInfoProof : AccumulatorProof
  transactionInfo : TransactionInfo
  deriving DecidableEq, Repr

structure EventProof where
  transactionInfoWithProof : TransactionInfoWithProof
  transactionInfoToEventProof : AccumulatorProof
  deriving DecidableEq, Repr

structure TransactionListProof where
  ledgerInfoToTransactionInfosProof : AccumulatorRangeProof
  transactionInfos : List TransactionInfo
  deriving DecidableEq, Repr

section

variable (C : Crypto)

def TransactionInfo.hash (info : TransactionInfo) : HashValue := C.hash (.transactionInfo info)

def verifyTransactionInfo (ledgerInfo : LedgerInfo) (transactionVersion : Nat)
    (transactionInfo : TransactionInfo) (proof : AccumulatorProof) : Outcome Unit := do
  ensure (transactionVersion ≤ ledgerInfo.commitInfo.version) (.error
    s!"Transaction version {transactionVersion} is newer than LedgerInfo version {ledgerInfo.commitInfo.version}.")
  proof.verify (AccumulatorHasher.transactionAccumulator.node C)
    ledgerInfo.commitInfo.executedStateId (transactionInfo.hash C) transactionVersion

def TransactionInfoWithProof.verify (proof : TransactionInfoWithProof) (ledgerInfo : LedgerInfo)
    (transactionVersion : Nat) : Outcome Unit :=
  verifyTransactionInfo C ledgerInfo transactionVersion proof.transactionInfo
    proof.ledgerInfoToTransactionInfoProof

def EventProof.verify (proof : EventProof) (ledgerInfo : LedgerInfo) (eventHash : HashValue)
    (transactionVersion eventVersionWithinTransaction : Nat) : Outcome Unit := do
  proof.transactionInfoToEventProof.verify (AccumulatorHasher.eventAccumulator.node C)
    proof.transactionInfoWithProof.transactionInfo.eventRootHash eventHash
    eventVersionWithinTransaction
  proof.transactionInfoWithProof.verify C ledgerInfo transactionVersion

def checkTransactionHashes : List HashValue → List TransactionInfo → Outcome Unit
  | txnHash :: hashes, txnInfo :: infos => do
    ensure (txnHash = txnInfo.transactionHash) (.error
      s!"The hash of transaction does not match the transaction info in proof. Transaction hash: {txnHash}. Transaction hash in txn_info: {txnInfo.transactionHash}.")
    checkTransactionHashes hashes infos
  | _, _ => .ok ()

def TransactionListProof.verify (proof : TransactionListProof) (ledgerInfo : LedgerInfo)
    (firstTransactionVersion : Option Nat) (transactionHashes : List HashValue) : Outcome Unit := do
  ensure (proof.transactionInfos.length = transactionHashes.length) (.error
    s!"The number of TransactionInfo objects ({proof.transactionInfos.length}) does not match the number of transactions ({transactionHashes.length}).")
  checkTransactionHashes transactionHashes proof.transactionInfos
  proof.ledgerInfoToTransactionInfosProof.verify (AccumulatorHasher.transactionAccumulator.node C)
    ledgerInfo.commitInfo.executedStateId firstTransactionVersion
    (proof.transactionInfos.map (hash C))

end

/-! ## Climbing opens the root -/

section

variable {node : HashValue → HashValue → HashValue}

theorem AccumulatorProof.opens_climb (siblings : List HashValue) (hash : HashValue) (index : Nat) :
    Opens node siblings.length index (siblings.foldl (climb node) (hash, index)).1 hash := by
  induction siblings generalizing hash index with
  | nil => rfl
  | cons sibling _ ih =>
    rw [foldl_cons, climb, length_cons]
    rcases Nat.mod_two_eq_zero_or_one index with hmod | hmod
    · have h := (ih (node hash sibling) (index / 2)).child
      simpa [hmod] using h
    · have h := (ih (node sibling hash) (index / 2)).child
      simpa [hmod] using h

namespace AccumulatorRangeProof

theorem pairUp_getElem? {hashes rightSiblings parents rightSiblings' : List HashValue}
    (h : pairUp node hashes rightSiblings = .ok (parents, rightSiblings')) {j}
    {x : HashValue} (hx : hashes[j]? = some x) :
    ∃ left right, parents[j / 2]? = some (node left right) ∧
      x = if j % 2 = 1 then right else left := by
  fun_induction pairUp node hashes rightSiblings generalizing parents rightSiblings' j with
  | case1 => simp at hx
  | case2 => simp at h
  | case3 left right =>
    cases h
    obtain ⟨rfl, rfl⟩ : j = 0 ∧ left = x := by
      cases j <;> simp_all
    exact ⟨left, right, by simp⟩
  | case4 left right rest rightSiblings ih =>
    simp only [bind_eq_ok, pure_eq_ok, Prod.exists, Prod.mk.injEq] at h
    obtain ⟨_, _, hpairs, rfl, rfl⟩ := h
    rcases j with _ | _ | j
    · exact ⟨left, right, by simpa using hx.symm⟩
    · exact ⟨left, right, by simpa using hx.symm⟩
    · obtain ⟨l, r, hparent, hchild⟩ := ih hpairs hx
      refine ⟨l, r, ?_, ?_⟩
      · rw [show (j + 1 + 1) / 2 = j / 2 + 1 by omega, getElem?_cons_succ]
        exact hparent
      · rw [show (j + 1 + 1) % 2 = j % 2 by omega]
        exact hchild

theorem combineLevel_getElem? {isRightChild : Bool} {l l'}
    (h : combineLevel node isRightChild l = .ok l') {p j x}
    (hp : isRightChild = true ↔ p % 2 = 1) (hx : (l.first :: l.rest)[j]? = some x) :
    ∃ left right, (l'.first :: l'.rest)[(p + j) / 2 - p / 2]? = some (node left right) ∧
      x = if (p + j) % 2 = 1 then right else left := by
  obtain ⟨lefts, hlength, -, hpairs⟩ := combineLevel_spec h
  have hlefts : lefts.length = p % 2 := by
    rw [hlength]
    cases isRightChild with
    | true => exact (hp.mp rfl).symm
    | false =>
      replace hp : p % 2 = 0 := by simpa using hp
      exact hp.symm
  have hx' : (lefts ++ l.first :: l.rest)[p % 2 + j]? = some x := by
    rw [← hlefts, getElem?_append_right (Nat.le_add_right ..), Nat.add_sub_cancel_left]
    exact hx
  obtain ⟨left, right, hparent, hchild⟩ := pairUp_getElem? hpairs hx'
  refine ⟨left, right, ?_, ?_⟩
  · rw [show (p + j) / 2 - p / 2 = (p % 2 + j) / 2 by omega]
    exact hparent
  · rw [show (p + j) % 2 = (p % 2 + j) % 2 by omega]
    exact hchild

theorem reduceLevels_opens {firstPos l top level p}
    (h : reduceLevels node firstPos l = .ok top) (hpos : firstPos.IsAt level p) :
    ∃ levels, ∀ j x, (l.first :: l.rest)[j]? = some x →
      Opens node levels (p + j) top x ∧ (p + j) / 2 ^ levels = p / 2 ^ levels := by
  induction hsize : l.size using Nat.strongRecOn generalizing firstPos l level p with
  | ind _ ih =>
    subst hsize
    rw [reduceLevels] at h
    split at h
    · -- One hash is left, which is the root itself.
      rename_i hzero
      cases h
      have hrest : l.rest = [] := eq_nil_of_length_eq_zero (by rw [Level.size] at hzero; omega)
      refine ⟨0, fun j x hx => ?_⟩
      obtain ⟨rfl, rfl⟩ : j = 0 ∧ l.first = x := by
        cases j <;> simp_all
      exact ⟨rfl, rfl⟩
    · split at h
      · cases h
      · rename_i l' hcombine
        obtain ⟨_, hparent⟩ := hpos.exists_parent
        obtain ⟨levels, hopens⟩ := ih _ (combineLevel_size_lt hcombine) h hparent rfl
        refine ⟨levels + 1, fun j x hx => ?_⟩
        obtain ⟨_, _, hnode, rfl⟩ :=
          combineLevel_getElem? hcombine hpos.isRightChild_iff hx
        obtain ⟨hopen, hbelow⟩ := hopens _ _ hnode
        rw [show p / 2 + ((p + j) / 2 - p / 2) = (p + j) / 2 by omega] at hopen hbelow
        refine ⟨hopen.child, ?_⟩
        rw [Nat.pow_succ', ← Nat.div_div_eq_div_mul, ← Nat.div_div_eq_div_mul]
        exact hbelow

end AccumulatorRangeProof

end

/-! ## What an accepted proof shows -/

section

variable (C : Crypto) (H : AccumulatorHasher) {proof : AccumulatorRangeProof}
  {hashes : List HashValue}

def accumulatorRoot (leaves : List HashValue) : HashValue :=
  root (H.node C) accumulatorPlaceholderHash leaves

def LeafHash (hash : HashValue) : Prop :=
  hash ≠ accumulatorPlaceholderHash ∧ ∀ left right, hash ≠ H.node C left right

variable {C H}

theorem AccumulatorHasher.node_eq_hash (H : AccumulatorHasher) (left right : HashValue) :
    ∃ value, H.node C left right = C.hash value := by
  cases H with
  | transactionAccumulator => exact ⟨.transactionAccumulatorNode left right, rfl⟩
  | eventAccumulator => exact ⟨.eventAccumulatorNode left right, rfl⟩

theorem separated_of_leafHash (hC : C.CollisionFree)
    (hplaceholder : ∀ value, C.hash value ≠ accumulatorPlaceholderHash) {leaves : List HashValue}
    (hleaves : ∀ x ∈ leaves, LeafHash C H x) :
    Separated (H.node C) accumulatorPlaceholderHash leaves where
  node_injective := by
    intro l r _ _ heq
    cases H with
    | transactionAccumulator | eventAccumulator => simpa using hC heq
  placeholder_ne_node := by
    intro l r heq
    obtain ⟨value, hvalue⟩ := H.node_eq_hash l r
    exact hplaceholder value (heq.trans hvalue).symm
  leaf_ne_node := fun x hx => (hleaves x hx).2
  leaf_ne_placeholder := fun x hx => (hleaves x hx).1

theorem AccumulatorProof.verify_spec {node : HashValue → HashValue → HashValue}
    {proof : AccumulatorProof} {top hash index} (h : proof.verify node top hash index = .ok ()) :
    Opens node proof.siblings.length index top hash := by
  simp only [verify, bind_eq_ok, ensure_eq_ok] at h
  obtain ⟨_, -, rfl⟩ := h
  exact opens_climb proof.siblings hash index

theorem AccumulatorRangeProof.verify_spec {node : HashValue → HashValue → HashValue}
    {top first} (h : proof.verify node top (some first) hashes = .ok ()) :
    hashes ≠ [] ∧ ∃ levels, ∀ j x, hashes[j]? = some x →
      Opens node levels (first % 2 ^ 63 + j) top x ∧
      (first % 2 ^ 63 + j) / 2 ^ levels = first % 2 ^ 63 / 2 ^ levels := by
  cases hashes with
  | nil => simp [verify] at h
  | cons =>
    simp only [verify, bind_eq_ok, ensure_eq_ok] at h
    obtain ⟨_, -, _, -, _, hreduce, rfl⟩ := h
    have hpos := Position.fromLeafIndex_isAt (BitVec.ofNat 64 first)
    rw [BitVec.toNat_ofNat, Nat.mod_mod_of_dvd _ (by decide)] at hpos
    exact ⟨cons_ne_nil _ _, reduceLevels_opens hreduce hpos⟩

variable (node : HashValue → HashValue → HashValue) (hash : HashValue)

theorem AccumulatorProof.verify_nil (index : Nat) :
    AccumulatorProof.verify node ⟨[]⟩ hash hash index = .ok () := by
  simp [verify, ensure, bind, Except.bind]

theorem AccumulatorRangeProof.verify_nil (first : Nat) :
    AccumulatorRangeProof.verify node ⟨[], []⟩ hash (some first) [hash] = .ok () := by
  rw [verify, reduceLevels]
  simp [ensure, Level.size, bind, Except.bind]

variable {leaves : List HashValue}

section

variable (hsep : Separated (H.node C) accumulatorPlaceholderHash leaves)

include hsep

theorem AccumulatorProof.verify_iff {proof : AccumulatorProof} {hash : HashValue} {index : Nat}
    (h : proof.verify (H.node C) (accumulatorRoot C H leaves) hash index = .ok ()) :
    (index < leaves.length ∧ leaves[index]? = some hash) ↔
      (index < 2 ^ depth leaves.length ∧ LeafHash C H hash) := by
  have hdepth := le_two_pow_depth leaves.length
  constructor
  · rintro ⟨hlt, hget⟩
    have hmem := mem_of_getElem? hget
    exact ⟨hlt.trans_le hdepth, hsep.leaf_ne_placeholder _ hmem, hsep.leaf_ne_node _ hmem⟩
  · rintro ⟨hlt, hne, hnode⟩
    obtain ⟨-, hget⟩ := hsep.opens_subtree hdepth hnode hne (verify_spec h)
    rw [Nat.mod_eq_of_lt hlt] at hget
    exact ⟨(List.getElem?_eq_some_iff.mp hget).1, hget⟩

theorem AccumulatorRangeProof.verify_iff (hmax : leaves.length ≤ maxAccumulatorLeaves) {first : Nat}
    (h : proof.verify (H.node C) (accumulatorRoot C H leaves) (some first) hashes = .ok ()) :
    (∀ j x, hashes[j]? = some x → first + j < leaves.length ∧ leaves[first + j]? = some x) ↔
      (first < 2 ^ depth leaves.length ∧ ∀ x ∈ hashes, LeafHash C H x) := by
  have hdepth := le_two_pow_depth leaves.length
  obtain ⟨hne, _, hopens⟩ := verify_spec h
  constructor
  · intro hshows
    constructor
    · obtain ⟨hash, _, rfl⟩ := exists_cons_of_ne_nil hne
      have := (hshows 0 hash rfl).1
      omega
    · intro x hx
      obtain ⟨j, hj⟩ := getElem?_of_mem hx
      have hmem := mem_of_getElem? (hshows j x hj).2
      exact ⟨hsep.leaf_ne_placeholder _ hmem, hsep.leaf_ne_node _ hmem⟩
  · rintro ⟨hlt, hleaf⟩ j x hx
    have hwidth : 2 ^ depth leaves.length ≤ 2 ^ 63 :=
      Nat.pow_le_pow_right (by decide) (Nat.clog_le_of_le_pow hmax)
    obtain ⟨hopen, hbelow⟩ := hopens j x hx
    obtain ⟨hplaceholder, hnode⟩ := hleaf x (mem_of_getElem? hx)
    obtain ⟨rfl, hget⟩ := hsep.opens_subtree hdepth hnode hplaceholder hopen
    have hfirst : first % 2 ^ 63 = first := Nat.mod_eq_of_lt (by omega)
    -- The range ends below the node above its first leaf, so that no index of it is reduced.
    rw [hfirst, Nat.div_eq_of_lt hlt, Nat.div_eq_zero_iff_lt (Nat.two_pow_pos _)] at hbelow
    rw [hfirst, Nat.mod_eq_of_lt hbelow] at hget
    exact ⟨(List.getElem?_eq_some_iff.mp hget).1, hget⟩

end

theorem leafHash_of_hash (hC : C.CollisionFree)
    (hplaceholder : ∀ value, C.hash value ≠ accumulatorPlaceholderHash) {value : Hashed}
    (hvalue : ∀ left right, value ≠ .transactionAccumulatorNode left right ∧
      value ≠ .eventAccumulatorNode left right) : LeafHash C H (C.hash value) := by
  refine ⟨hplaceholder value, fun left right heq => ?_⟩
  cases H with
  | transactionAccumulator => exact (hvalue left right).1 (hC heq)
  | eventAccumulator => exact (hvalue left right).2 (hC heq)

end

/-- What a ledger info stands for: the transactions up to its version, and the events of each. -/
structure CommittedLedger where
  infos : List TransactionInfo
  events : Nat → List ContractEvent

variable (C : Crypto) (ledger : CommittedLedger)

def CommittedLedger.eventHashes (version : Nat) : List HashValue :=
  (ledger.events version).map fun event => C.hash (.contractEvent event)

structure CommittedLedger.Matches (li : LedgerInfo) :
    Prop where
  version : li.commitInfo.version + 1 = ledger.infos.length
  max : ledger.infos.length ≤ maxAccumulatorLeaves
  transactionRoot : li.commitInfo.executedStateId =
    accumulatorRoot C .transactionAccumulator (ledger.infos.map (hash C))
  eventRoot : ∀ {version info}, ledger.infos[version]? = some info →
    info.eventRootHash = accumulatorRoot C .eventAccumulator (ledger.eventHashes C version)

section

variable {C : Crypto} {ledger : CommittedLedger} {li : LedgerInfo} {hashes : List HashValue}
  {infos : List TransactionInfo} {info : TransactionInfo}

theorem checkTransactionHashes_spec (h : checkTransactionHashes hashes infos = .ok ())
    (hlength : infos.length = hashes.length) : hashes = infos.map transactionHash := by
  induction hashes generalizing infos with
  | nil =>
    rw [eq_nil_of_length_eq_zero hlength]
    rfl
  | cons _ _ ih =>
    cases infos with
    | nil => simp at hlength
    | cons =>
      simp only [checkTransactionHashes, bind_eq_ok, ensure_eq_ok] at h
      obtain ⟨_, hhash, hrest⟩ := h
      rw [map_cons, ← hhash, ← ih hrest (by simpa using hlength)]

section

variable (hC : C.CollisionFree)

include hC

theorem separated_map_hash (hplaceholder : ∀ value, C.hash value ≠ accumulatorPlaceholderHash)
    (H : AccumulatorHasher) {α : Type} {f : α → Hashed}
    (hf : ∀ a left right, f a ≠ .transactionAccumulatorNode left right ∧
      f a ≠ .eventAccumulatorNode left right) (l : List α) :
    Separated (H.node C) accumulatorPlaceholderHash (l.map fun a => C.hash (f a)) := by
  apply separated_of_leafHash hC hplaceholder
  intro x hx
  obtain ⟨a, -, rfl⟩ := mem_map.mp hx
  exact leafHash_of_hash hC hplaceholder (hf a)

theorem TransactionInfo.getElem?_map_hash {i : Nat} :
    (infos.map (hash C))[i]? = some (info.hash C) ↔ infos[i]? = some info := by
  have hinj : Function.Injective (hash C) := by
    intro info _ heq
    simpa using hC heq
  rw [getElem?_map, Option.map_eq_some_iff]
  constructor
  · rintro ⟨_, hget, heq⟩
    rwa [hinj heq] at hget
  · intro hget
    exact ⟨info, hget, rfl⟩

section

variable (hplaceholder : ∀ value, C.hash value ≠ accumulatorPlaceholderHash)
  (hledger : ledger.Matches C li)

include hplaceholder hledger

/-- The version is compared with the one of the ledger info, so that the transaction info of an
accepted proof is always the one at that version. -/
theorem verifyTransactionInfo_spec {version : Nat} {proof}
    (h : verifyTransactionInfo C li version info proof = .ok ()) :
    ledger.infos[version]? = some info := by
  simp only [verifyTransactionInfo, bind_eq_ok, ensure_eq_ok] at h
  obtain ⟨_, _, hverify⟩ := h
  rw [hledger.transactionRoot] at hverify
  have hlt : version < (ledger.infos.map (hash C)).length := by
    rw [length_map, ← hledger.version]
    omega
  have hleaf : LeafHash C .transactionAccumulator (info.hash C) :=
    leafHash_of_hash hC hplaceholder (by simp)
  have hsep := separated_map_hash hC hplaceholder .transactionAccumulator
    (f := .transactionInfo) (by simp) ledger.infos
  have hget := (AccumulatorProof.verify_iff hsep hverify).mpr
    ⟨hlt.trans_le (le_two_pow_depth _), hleaf⟩
  exact (getElem?_map_hash hC).mp hget.2

theorem EventProof.verify_iff {proof : EventProof} {eventHash}
    {version index : Nat} (h : proof.verify C li eventHash version index = .ok ()) :
    ledger.infos[version]? = some proof.transactionInfoWithProof.transactionInfo ∧
    ((index < (ledger.eventHashes C version).length ∧
        (ledger.eventHashes C version)[index]? = some eventHash) ↔
      (index < 2 ^ depth (ledger.eventHashes C version).length ∧
        LeafHash C .eventAccumulator eventHash)) := by
  simp only [verify, bind_eq_ok] at h
  obtain ⟨_, hevent, hinfo⟩ := h
  have hget := verifyTransactionInfo_spec hC hplaceholder hledger hinfo
  rw [hledger.eventRoot hget] at hevent
  exact ⟨hget, AccumulatorProof.verify_iff
    (separated_map_hash hC hplaceholder _ (f := .contractEvent) (by simp) _) hevent⟩

theorem TransactionListProof.verify_iff {proof : TransactionListProof} {first}
    (h : proof.verify C li (some first) hashes = .ok ()) :
    hashes = proof.transactionInfos.map transactionHash ∧
    ((∀ j info, proof.transactionInfos[j]? = some info →
        first + j < ledger.infos.length ∧ ledger.infos[first + j]? = some info) ↔
      first < 2 ^ depth ledger.infos.length) := by
  simp only [verify, bind_eq_ok, ensure_eq_ok] at h
  obtain ⟨_, hlength, _, hhashes, hrange⟩ := h
  refine ⟨checkTransactionHashes_spec hhashes hlength, ?_⟩
  have hleaf : ∀ x ∈ proof.transactionInfos.map (hash C),
      LeafHash C .transactionAccumulator x := by
    intro x hx
    obtain ⟨info, -, rfl⟩ := mem_map.mp hx
    exact leafHash_of_hash hC hplaceholder (by simp)
  rw [hledger.transactionRoot] at hrange
  have hiff := AccumulatorRangeProof.verify_iff
    (separated_map_hash hC hplaceholder _ (f := .transactionInfo) (by simp) ledger.infos)
    (by rw [length_map]; exact hledger.max) hrange
  rw [and_iff_left hleaf, length_map] at hiff
  rw [← hiff]
  constructor
  · intro hshows j x hx
    rw [getElem?_map, Option.map_eq_some_iff] at hx
    obtain ⟨info, hinfo, rfl⟩ := hx
    obtain ⟨hlt, hget⟩ := hshows j info hinfo
    exact ⟨hlt, (getElem?_map_hash hC).mpr hget⟩
  · intro hshows j _ hinfo
    obtain ⟨hlt, hget⟩ := hshows j _ ((getElem?_map_hash hC).mpr hinfo)
    exact ⟨hlt, (getElem?_map_hash hC).mp hget⟩

end

end

end

/-- An accepted proof shows the leaf at the index it is asked about exactly when the index is below
the width of the tree and the hash is one of a leaf. -/
theorem accumulatorProofs_bind_iff (C : Crypto) (hC : C.CollisionFree)
    (hplaceholder : ∀ value, C.hash value ≠ accumulatorPlaceholderHash) :
    (∀ (H : AccumulatorHasher) (leaves : List HashValue), (∀ x ∈ leaves, LeafHash C H x) →
      leaves.length ≤ maxAccumulatorLeaves →
      (∀ (proof : AccumulatorProof) (hash : HashValue) (index : Nat),
        proof.verify (H.node C) (accumulatorRoot C H leaves) hash index = .ok () →
        ((index < leaves.length ∧ leaves[index]? = some hash) ↔
          (index < 2 ^ depth leaves.length ∧ LeafHash C H hash))) ∧
      (∀ (proof : AccumulatorRangeProof) (first : Nat) (hashes : List HashValue),
        proof.verify (H.node C) (accumulatorRoot C H leaves) (some first) hashes = .ok () →
        ((∀ j x, hashes[j]? = some x → first + j < leaves.length ∧ leaves[first + j]? = some x) ↔
          (first < 2 ^ depth leaves.length ∧ ∀ x ∈ hashes, LeafHash C H x)))) ∧
    (∀ (ledger : CommittedLedger) (li : LedgerInfo), ledger.Matches C li →
      (∀ (proof : EventProof) (eventHash : HashValue) (version index : Nat),
        proof.verify C li eventHash version index = .ok () →
        ledger.infos[version]? = some proof.transactionInfoWithProof.transactionInfo ∧
        ((index < (ledger.eventHashes C version).length ∧
            (ledger.eventHashes C version)[index]? = some eventHash) ↔
          (index < 2 ^ depth (ledger.eventHashes C version).length ∧
            LeafHash C .eventAccumulator eventHash))) ∧
      (∀ (proof : TransactionListProof) (first : Nat) (hashes : List HashValue),
        proof.verify C li (some first) hashes = .ok () →
        hashes = proof.transactionInfos.map transactionHash ∧
        ((∀ j info, proof.transactionInfos[j]? = some info →
            first + j < ledger.infos.length ∧ ledger.infos[first + j]? = some info) ↔
          first < 2 ^ depth ledger.infos.length))) := by
  constructor
  · intro H _ hleaves hmax
    have hsep := separated_of_leafHash hC hplaceholder hleaves
    exact ⟨fun _ _ _ h => AccumulatorProof.verify_iff hsep h,
      fun _ _ _ h => AccumulatorRangeProof.verify_iff hsep hmax h⟩
  · intro _ _ hledger
    exact ⟨fun _ _ _ _ h => EventProof.verify_iff hC hplaceholder hledger h,
      fun _ _ _ h => TransactionListProof.verify_iff hC hplaceholder hledger h⟩

noncomputable def threeEvents : List HashValue :=
  [0, 1, 2].map fun event => Crypto.apart.hash (.contractEvent event)

theorem accumulatorProofs_bind_iff_threeEvents :
    (2 < threeEvents.length ∧ threeEvents[2]? = some (Crypto.apart.hash (.contractEvent 2))) ↔
    (2 < 2 ^ depth threeEvents.length ∧
      LeafHash .apart .eventAccumulator (Crypto.apart.hash (.contractEvent 2))) := by
  have hleaves : ∀ x ∈ threeEvents, LeafHash .apart .eventAccumulator x := by
    intro x hx
    obtain ⟨event, -, rfl⟩ := mem_map.mp hx
    exact leafHash_of_hash Crypto.apart_collisionFree Crypto.apart_hash_ne_placeholder (by simp)
  refine ((accumulatorProofs_bind_iff .apart Crypto.apart_collisionFree
    Crypto.apart_hash_ne_placeholder).1 .eventAccumulator threeEvents hleaves (by decide)).1
    ⟨[accumulatorPlaceholderHash, AccumulatorHasher.eventAccumulator.node .apart
      (Crypto.apart.hash (.contractEvent 0)) (Crypto.apart.hash (.contractEvent 1))]⟩ _ 2 ?_
  exact bind_eq_ok.mpr ⟨(), rfl, ensure_eq_ok.mpr rfl⟩

noncomputable def onlyInfo : TransactionInfo where
  transactionHash := 0
  stateRootHash := 0
  eventRootHash := Crypto.apart.hash (.contractEvent 0)
  gasUsed := 0
  status := 0

noncomputable def onlyLedgerInfo : LedgerInfo where
  commitInfo := { BlockInfo.empty with executedStateId := onlyInfo.hash .apart }
  consensusDataHash := HashValue.zero

theorem onlyLedger_matches : CommittedLedger.Matches .apart ⟨[onlyInfo], fun _ => [0]⟩
    onlyLedgerInfo where
  version := rfl
  max := by decide
  transactionRoot := rfl
  eventRoot := by
    intro _ _ hget
    have hmem := mem_of_getElem? hget
    rw [mem_singleton.mp hmem]
    rfl

/-- All four verifiers accept index 1 in an accumulator with one leaf. -/
theorem accumulatorProofs_accept_missing_index :
    Crypto.apart.CollisionFree ∧
    (∀ value, Crypto.apart.hash value ≠ accumulatorPlaceholderHash) ∧
    CommittedLedger.Matches .apart ⟨[onlyInfo], fun _ => [0]⟩ onlyLedgerInfo ∧
    AccumulatorProof.verify (AccumulatorHasher.transactionAccumulator.node .apart) ⟨[]⟩
      (accumulatorRoot .apart .transactionAccumulator [onlyInfo.hash .apart])
      (onlyInfo.hash .apart) 1 = .ok () ∧
    AccumulatorRangeProof.verify (AccumulatorHasher.transactionAccumulator.node .apart) ⟨[], []⟩
      (accumulatorRoot .apart .transactionAccumulator [onlyInfo.hash .apart]) (some 1)
      [onlyInfo.hash .apart] = .ok () ∧
    EventProof.verify .apart ⟨⟨⟨[]⟩, onlyInfo⟩, ⟨[]⟩⟩ onlyLedgerInfo
      (Crypto.apart.hash (.contractEvent 0)) 0 1 = .ok () ∧
    TransactionListProof.verify .apart ⟨⟨[], []⟩, [onlyInfo]⟩ onlyLedgerInfo (some 1)
      [onlyInfo.transactionHash] = .ok () := by
  have hinfo := AccumulatorProof.verify_nil (AccumulatorHasher.transactionAccumulator.node .apart)
    (onlyInfo.hash .apart)
  have hevent := AccumulatorProof.verify_nil (AccumulatorHasher.eventAccumulator.node .apart)
    (Crypto.apart.hash (.contractEvent 0)) 1
  have hrange := AccumulatorRangeProof.verify_nil
    (AccumulatorHasher.transactionAccumulator.node .apart) (onlyInfo.hash .apart) 1
  refine ⟨Crypto.apart_collisionFree, Crypto.apart_hash_ne_placeholder, onlyLedger_matches,
    hinfo 1, hrange, ?_, hrange⟩
  exact bind_eq_ok.mpr ⟨(), hevent, hinfo 0⟩

end Loki.Diem
