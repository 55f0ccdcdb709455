import Loki.Diem.Types
import Loki.Foundation.Call
import Loki.Foundation.Quorum

/-!
# Validator sets and quorum certificates

`types/src/validator_verifier.rs`.  The verifier decides whether a set of signatures is a
quorum.  `QuorumSigned` says what such a decision means: every signature is valid and belongs to
a known author, and together the authors reach `quorum_voting_power`.

The running sum of voting powers is a `u64` that wraps around, as it does in a release build.
-/

namespace Loki.Diem

open Loki.Foundation List ValidatorConsensusInfo Nat
open Std.ExtTreeMap (length_keys nodup_keys)

inductive VerifyError where
  | unknownAuthor
  | tooLittleVotingPower (votingPower quorumVotingPower : Nat)
  | tooManySignatures (numOfSignatures numOfAuthors : Nat)
  | invalidSignature
  | inconsistentBlockInfo
  deriving DecidableEq, Repr

/-- The `Display` text of the error. -/
def VerifyError.toString : VerifyError → String
  | .unknownAuthor => "Author is unknown"
  | .tooLittleVotingPower power quorum =>
    s!"The voting power ({power}) is less than quorum voting power ({quorum})"
  | .tooManySignatures signatures authors =>
    s!"The number of signatures ({signatures}) is greater than total number of authors ({authors})"
  | .invalidSignature => "Signature is invalid"
  | .inconsistentBlockInfo => "Inconsistent Block Info"

def authorsOf {β : Type} (signatures : BTreeMap AccountAddress β) : Finset AccountAddress :=
  signatures.keys.toFinset

variable {author : AccountAddress}

@[simp] theorem mem_authorsOf {β} {signatures : BTreeMap AccountAddress β} :
    author ∈ authorsOf signatures ↔ author ∈ signatures := by
  simp [authorsOf]

theorem mem_authorsOf_iff {β} {signatures : BTreeMap AccountAddress β} :
    author ∈ authorsOf signatures ↔ ∃ s, signatures[author]? = some s := by
  rw [mem_authorsOf, Std.ExtTreeMap.mem_iff_isSome_getElem?, Option.isSome_iff_exists]

theorem authorsOf_insertIfNew {β} (signatures : BTreeMap AccountAddress β)
    (author : AccountAddress) (value : β) :
    authorsOf (signatures.insertIfNew author value) = insert author (authorsOf signatures) := by
  ext author'
  simp only [mem_authorsOf, Std.ExtTreeMap.mem_insertIfNew, Std.LawfulEqCmp.compare_eq_iff_eq,
    Finset.mem_insert]
  exact or_congr_left eq_comm

namespace ValidatorVerifier

variable (v : ValidatorVerifier) (author : AccountAddress)

def getPublicKey : Option PublicKey :=
  v.addressToValidatorInfo[author]?.map publicKey

def getVotingPower : Option Nat :=
  v.addressToValidatorInfo[author]?.map votingPower

variable (v : ValidatorVerifier)

def len : Nat := v.addressToValidatorInfo.size

variable (infos : BTreeMap AccountAddress ValidatorConsensusInfo)

/-- `sum_voting_power`; there is no result when its `checked_add` overflows and it panics. -/
def sumVotingPower : Option Nat :=
  (infos.toList.map Prod.snd).foldlM
    (fun sum info =>
      if sum + info.votingPower < u64Bound then some (sum + info.votingPower) else none) 0

/-- `ValidatorVerifier::new`; `total * 2` wraps around. -/
def new : Option ValidatorVerifier := do
  let totalVotingPower ← sumVotingPower infos
  return {
    addressToValidatorInfo := infos
    quorumVotingPower :=
      if infos.isEmpty then 0 else totalVotingPower * 2 % u64Bound / 3 + 1
    totalVotingPower := totalVotingPower }

/-- `ValidatorVerifier::new_single`. -/
def newSingle (author : AccountAddress) (publicKey : PublicKey) : Option ValidatorVerifier :=
  new ((∅ : BTreeMap AccountAddress ValidatorConsensusInfo).insert author
    { publicKey := publicKey, votingPower := 1 })

def sole : ValidatorVerifier where
  addressToValidatorInfo := (∅ : BTreeMap AccountAddress ValidatorConsensusInfo).insert 1
    { publicKey := 7, votingPower := 1 }
  quorumVotingPower := 1
  totalVotingPower := 1

example : newSingle 1 7 = some sole := by decide

/-- The loop of `check_voting_power`. -/
def aggregateVotingPower (v : ValidatorVerifier) :
    List AccountAddress → Nat → Except VerifyError Nat
  | [], aggregated => .ok aggregated
  | author :: authors, aggregated =>
    match v.getVotingPower author with
    | some power => v.aggregateVotingPower authors ((aggregated + power) % u64Bound)
    | none => .error .unknownAuthor

def checkVotingPower (authors : List AccountAddress) : Except VerifyError Unit := do
  let aggregated ← v.aggregateVotingPower authors 0
  ensure (v.quorumVotingPower ≤ aggregated)
    (.tooLittleVotingPower aggregated v.quorumVotingPower)

def checkNumOfSignatures (signatures : BTreeMap AccountAddress Signature) :
    Except VerifyError Unit :=
  ensure (signatures.size ≤ v.len) (.tooManySignatures signatures.size v.len)

variable (C : Crypto) {author : AccountAddress} {message : Message} {signature : Signature}
  {pairs : List (AccountAddress × Signature)} {signatures : BTreeMap AccountAddress Signature}

def verify (v : ValidatorVerifier) (author : AccountAddress) (message : Message)
    (signature : Signature) : Except VerifyError Unit :=
  match v.getPublicKey author with
  | some key => ensure (C.verify key message signature = true) .invalidSignature
  | none => .error .unknownAuthor

def verifyEach (v : ValidatorVerifier) (message : Message) :
    List (AccountAddress × Signature) → Except VerifyError Unit
  | [] => .ok ()
  | (author, signature) :: rest => do
    v.verify C author message signature
    v.verifyEach message rest

def verifyAggregatedStructSignature (v : ValidatorVerifier) (message : Message)
    (signatures : BTreeMap AccountAddress Signature) : Except VerifyError Unit := do
  v.checkNumOfSignatures signatures
  v.checkVotingPower signatures.keys
  v.verifyEach C message signatures.toList

/-- `Ed25519Signature::batch_verify`: every pair verifies. -/
def batchVerify (message : Message) (pairs : List (PublicKey × Signature)) : Bool :=
  pairs.all fun pair => C.verify pair.1 message pair.2

variable (v : ValidatorVerifier)

def batchVerifyAggregatedSignatures (message : Message)
    (signatures : BTreeMap AccountAddress Signature) : Except VerifyError Unit := do
  v.checkNumOfSignatures signatures
  v.checkVotingPower signatures.keys
  let keysAndSignatures := signatures.toList.filterMap fun (author, signature) =>
    (v.getPublicKey author).map fun key => (key, signature)
  -- the fallback finds out which signature is at fault
  if batchVerify C message keysAndSignatures then
    return ()
  else
    v.verifyAggregatedStructSignature C message signatures

/-! ## What a successful check means -/

def powerOf (author : AccountAddress) : Nat :=
  (v.getVotingPower author).getD 0

/-- The voting power of a set of authors, as a number and not as a `u64`. -/
def power (authors : Finset AccountAddress) : Nat :=
  ∑ author ∈ authors, v.powerOf author

def authors : Finset AccountAddress := authorsOf v.addressToValidatorInfo

variable (v : ValidatorVerifier)

structure HasQuorum (authors : Finset AccountAddress) : Prop where
  known : authors ⊆ v.authors
  power_le : v.quorumVotingPower ≤ v.power authors

def Signed (message : Message) (author : AccountAddress) (signature : Signature) : Prop :=
  ∃ key, v.getPublicKey author = some key ∧ C.verify key message signature = true

structure QuorumSigned (message : Message)
    (signatures : BTreeMap AccountAddress Signature) : Prop where
  quorum : v.HasQuorum (authorsOf signatures)
  signed : ∀ author signature, signatures[author]? = some signature →
    v.Signed C message author signature

variable {C} {v : ValidatorVerifier}

theorem powerOf_eq {power} (h : v.getVotingPower author = some power) :
    v.powerOf author = power := by
  simp [powerOf, h]

theorem mem_authors_of_getVotingPower {power} (h : v.getVotingPower author = some power) :
    author ∈ v.authors := by
  obtain ⟨info, hinfo, -⟩ := Option.map_eq_some_iff.mp h
  exact mem_authorsOf_iff.mpr ⟨info, hinfo⟩

theorem getVotingPower_of_mem_authors (h : author ∈ v.authors) :
    v.getVotingPower author = some (v.powerOf author) := by
  obtain ⟨_, hinfo⟩ := mem_authorsOf_iff.mp h
  simp [powerOf, getVotingPower, hinfo]

variable {authors : List AccountAddress}

theorem aggregateVotingPower_eq_ok {start total} :
    v.aggregateVotingPower authors start = .ok total ↔
      (∀ author ∈ authors, author ∈ v.authors) ∧
        total = if authors = [] then start
          else (start + (authors.map v.powerOf).sum) % u64Bound := by
  induction authors generalizing start with
  | nil => simp [aggregateVotingPower, eq_comm]
  | cons author authors ih =>
    unfold aggregateVotingPower
    cases hpower : v.getVotingPower author with
    | none =>
      simp only [reduceCtorEq, mem_cons, forall_eq_or_imp, false_iff]
      rintro ⟨⟨hmem, -⟩, -⟩
      simp [getVotingPower_of_mem_authors hmem] at hpower
    | some =>
      have hmem := mem_authors_of_getVotingPower hpower
      have hof := powerOf_eq hpower
      simp only [ih, mem_cons, forall_eq_or_imp, hmem, true_and, reduceCtorEq,
        if_false, map_cons, sum_cons, hof]
      refine and_congr_right fun _ => ?_
      by_cases hnil : authors = []
      · simp [hnil]
      · simp only [hnil, if_false, mod_add_mod, add_assoc]

theorem checkVotingPower_sound (hnodup : authors.Nodup)
    (h : v.checkVotingPower authors = .ok ()) : v.HasQuorum authors.toFinset := by
  simp only [checkVotingPower, bind_eq_ok, ensure_eq_ok, aggregateVotingPower_eq_ok] at h
  obtain ⟨_, ⟨hknown, rfl⟩, hle⟩ := h
  refine ⟨fun author hauthor => hknown author (mem_toFinset.mp hauthor), ?_⟩
  rw [power, sum_toFinset _ hnodup]
  refine hle.trans ?_
  split
  · exact zero_le _
  · rw [zero_add]
    exact mod_le _ _

/-- The voting powers of the whole set fit into a `u64`. -/
def NoOverflow (v : ValidatorVerifier) : Prop := v.power v.authors < u64Bound

theorem checkVotingPower_of_known (hv : v.NoOverflow)
    (hnodup : authors.Nodup) (hknown : authors.toFinset ⊆ v.authors) :
    v.checkVotingPower authors =
      if v.quorumVotingPower ≤ v.power authors.toFinset then .ok ()
      else .error (.tooLittleVotingPower (v.power authors.toFinset) v.quorumVotingPower) := by
  have hpower : v.power authors.toFinset = (authors.map v.powerOf).sum := sum_toFinset _ hnodup
  have hlt : v.power authors.toFinset < u64Bound :=
    lt_of_le_of_lt (Finset.sum_le_sum_of_subset hknown) hv
  have hsum : v.aggregateVotingPower authors 0 = .ok (v.power authors.toFinset) := by
    refine aggregateVotingPower_eq_ok.mpr ⟨fun _ h => hknown (mem_toFinset.mpr h), ?_⟩
    split
    · next hnil => simp [hnil, power]
    · rw [zero_add, ← hpower, mod_eq_of_lt hlt]
  rw [checkVotingPower, hsum]
  rfl

theorem checkVotingPower_iff (hv : v.NoOverflow) (hnodup : authors.Nodup) :
    v.checkVotingPower authors = .ok () ↔ v.HasQuorum authors.toFinset := by
  refine ⟨checkVotingPower_sound hnodup, fun h => ?_⟩
  rw [checkVotingPower_of_known hv hnodup h.known, if_pos h.power_le]

theorem verify_eq_ok {u} : v.verify C author message signature = .ok u ↔
      v.Signed C message author signature := by
  unfold verify Signed
  cases v.getPublicKey author <;> simp

theorem Signed.mem_authors (h : v.Signed C message author signature) : author ∈ v.authors := by
  obtain ⟨_, hkey, -⟩ := h
  obtain ⟨info, hinfo, -⟩ := Option.map_eq_some_iff.mp hkey
  exact mem_authorsOf_iff.mpr ⟨info, hinfo⟩

theorem verifyEach_eq_ok :
    v.verifyEach C message pairs = .ok () ↔ ∀ pair ∈ pairs, v.Signed C message pair.1 pair.2 := by
  induction pairs with
  | nil => simp [verifyEach]
  | cons _ _ ih => simp [verifyEach, verify_eq_ok, ih]

theorem batchVerify_eq_true (hknown : ∀ pair ∈ pairs, pair.1 ∈ v.authors) :
    batchVerify C message (pairs.filterMap fun (author, signature) =>
      (v.getPublicKey author).map fun key => (key, signature)) = true ↔
      ∀ pair ∈ pairs, v.Signed C message pair.1 pair.2 := by
  simp only [batchVerify, all_eq_true, mem_filterMap, Option.map_eq_some_iff]
  constructor
  · intro h pair hpair
    obtain ⟨info, hinfo⟩ := mem_authorsOf_iff.mp (hknown pair hpair)
    have hkey : v.getPublicKey pair.1 = some info.publicKey := by simp [getPublicKey, hinfo]
    exact ⟨_, hkey, h (info.publicKey, pair.2) ⟨pair, hpair, _, hkey, rfl⟩⟩
  · rintro h _ ⟨pair, hpair, _, hkey, rfl⟩
    obtain ⟨_, hkey', hverify⟩ := h pair hpair
    rw [hkey] at hkey'
    cases hkey'
    exact hverify

theorem authorsOf_card {β} (signatures : BTreeMap AccountAddress β) :
    (authorsOf signatures).card = signatures.size := by
  rw [authorsOf, toFinset_card_of_nodup nodup_keys, length_keys]

private theorem forall_mem_toList_iff :
    (∀ pair ∈ signatures.toList, v.Signed C message pair.1 pair.2) ↔
      ∀ author signature, signatures[author]? = some signature →
        v.Signed C message author signature := by
  simp

theorem verifyAggregatedStructSignature_sound
    (h : v.verifyAggregatedStructSignature C message signatures = .ok ()) :
    v.QuorumSigned C message signatures := by
  simp only [verifyAggregatedStructSignature, bind_eq_ok, verifyEach_eq_ok,
    forall_mem_toList_iff] at h
  obtain ⟨_, -, _, hpower, hsigned⟩ := h
  exact ⟨checkVotingPower_sound nodup_keys hpower, hsigned⟩

theorem verifyAggregatedStructSignature_complete (hv : v.NoOverflow)
    (h : v.QuorumSigned C message signatures) :
    v.verifyAggregatedStructSignature C message signatures = .ok () := by
  simp only [verifyAggregatedStructSignature, bind_eq_ok, verifyEach_eq_ok,
    forall_mem_toList_iff, checkVotingPower_iff hv nodup_keys]
  refine ⟨(), ensure_of _ ?_, (), h.quorum, h.signed⟩
  have hcard := Finset.card_le_card h.quorum.known
  rwa [authors, authorsOf_card, authorsOf_card] at hcard

theorem batchVerifyAggregatedSignatures_sound
    (h : v.batchVerifyAggregatedSignatures C message signatures = .ok ()) :
    v.QuorumSigned C message signatures := by
  simp only [batchVerifyAggregatedSignatures, bind_eq_ok] at h
  obtain ⟨_, -, _, hpower, hrest⟩ := h
  have hquorum := checkVotingPower_sound nodup_keys hpower
  split at hrest
  · next hbatch =>
      refine ⟨hquorum, forall_mem_toList_iff.mp ((batchVerify_eq_true ?_).mp hbatch)⟩
      intro _ hpair
      exact hquorum.known (mem_authorsOf_iff.mpr
        ⟨_, Std.ExtTreeMap.mem_toList_iff_getElem?_eq_some.mp hpair⟩)
  · exact verifyAggregatedStructSignature_sound hrest

theorem batchVerifyAggregatedSignatures_complete (hv : v.NoOverflow)
    (h : v.QuorumSigned C message signatures) :
    v.batchVerifyAggregatedSignatures C message signatures = .ok () := by
  have hloop := verifyAggregatedStructSignature_complete hv h
  have hsteps := hloop
  simp only [verifyAggregatedStructSignature, bind_eq_ok] at hsteps
  obtain ⟨_, hnum, _, hpower, -⟩ := hsteps
  simp only [batchVerifyAggregatedSignatures, bind_eq_ok]
  refine ⟨(), hnum, (), hpower, ?_⟩
  split
  · rfl
  · exact hloop

/-- The batch and the loop give the same answer, and the same error, on every input. -/
theorem batchVerifyAggregatedSignatures_eq (C : Crypto) (v : ValidatorVerifier)
    (message : Message) (signatures : BTreeMap AccountAddress Signature) :
    v.batchVerifyAggregatedSignatures C message signatures =
      v.verifyAggregatedStructSignature C message signatures := by
  rw [batchVerifyAggregatedSignatures, verifyAggregatedStructSignature]
  cases v.checkNumOfSignatures signatures with
  | error => rfl
  | ok =>
    cases hpower : v.checkVotingPower signatures.keys with
    | error => rfl
    | ok =>
      change (if _ then .ok () else v.verifyEach C message signatures.toList) =
        v.verifyEach C message signatures.toList
      split
      · next hbatch =>
        -- every author has a key, so no signature is left out of the batch
        have hknown := (checkVotingPower_sound nodup_keys hpower).known
        refine (verifyEach_eq_ok.mpr ((batchVerify_eq_true fun _ hpair => ?_).mp hbatch)).symm
        exact hknown (mem_authorsOf_iff.mpr
          ⟨_, Std.ExtTreeMap.mem_toList_iff_getElem?_eq_some.mp hpair⟩)
      · rfl

/-! ## Collected signatures -/

section

variable {message : Message} {signatures : BTreeMap AccountAddress Signature}

def AllSigned (C : Crypto) (v : ValidatorVerifier) (message : Message)
    (signatures : BTreeMap AccountAddress Signature) : Prop :=
  ∀ author signature, signatures[author]? = some signature → v.Signed C message author signature

theorem allSigned_empty : v.AllSigned C message ∅ := by
  intro _ _ h
  simp at h

section

variable (h : v.AllSigned C message signatures)

include h

theorem AllSigned.insertIfNew {author} {signature}
    (hsigned : v.Signed C message author signature) :
    v.AllSigned C message (signatures.insertIfNew author signature) := by
  intro author' signature' hget
  rw [Std.ExtTreeMap.getElem?_insertIfNew] at hget
  split at hget
  · next heq =>
      obtain rfl := Std.LawfulEqCmp.eq_of_compare heq.1
      obtain rfl := Option.some.inj hget
      exact hsigned
  · exact h author' signature' hget

theorem AllSigned.known : authorsOf signatures ⊆ v.authors := by
  intro author hauthor
  obtain ⟨signature, hget⟩ := mem_authorsOf_iff.mp hauthor
  exact (h author signature hget).mem_authors

theorem AllSigned.checkVotingPower (hv : v.NoOverflow) :
    v.checkVotingPower signatures.keys =
      if v.quorumVotingPower ≤ v.power (authorsOf signatures) then .ok ()
      else .error (.tooLittleVotingPower (v.power (authorsOf signatures)) v.quorumVotingPower) :=
  checkVotingPower_of_known hv nodup_keys h.known

theorem AllSigned.quorumSigned (hpower : v.quorumVotingPower ≤ v.power (authorsOf signatures)) :
    v.QuorumSigned C message signatures :=
  ⟨⟨h.known, hpower⟩, h⟩

end

end

/-! ## Validator sets built by `new` -/

private theorem foldlM_votingPower {infos : List ValidatorConsensusInfo} {start total : Nat}
    (hstart : start < u64Bound) (h : infos.foldlM (fun sum info =>
      if sum + info.votingPower < u64Bound then some (sum + info.votingPower) else none)
        start = some total) : total = start + (infos.map votingPower).sum ∧ total < u64Bound := by
  induction infos generalizing start with
  | nil =>
    simp only [foldlM_nil, Option.pure_def, Option.some.injEq] at h
    simp [← h, hstart]
  | cons _ _ ih =>
    simp only [foldlM_cons, Option.bind_eq_bind, Option.bind_eq_some_iff] at h
    obtain ⟨next, hnext, hrest⟩ := h
    split at hnext
    · next hlt =>
        cases hnext
        obtain ⟨_, hbound⟩ := ih hlt hrest
        exact ⟨by simp only [map_cons, sum_cons]; omega, hbound⟩
    · cases hnext

private theorem sum_votingPower_eq_power :
    ((v.addressToValidatorInfo.toList.map Prod.snd).map votingPower).sum = v.power v.authors := by
  rw [power, authors, authorsOf, sum_toFinset _ nodup_keys,
    ← Std.ExtTreeMap.map_fst_toList_eq_keys, map_map, map_map]
  congr 1
  refine map_congr_left fun _ hpair => ?_
  rw [Std.ExtTreeMap.mem_toList_iff_getElem?_eq_some] at hpair
  simp [powerOf, getVotingPower, hpair]

theorem new_spec {infos} (h : new infos = some v) :
    v.addressToValidatorInfo = infos ∧ v.totalVotingPower = v.power v.authors ∧ v.NoOverflow ∧
      v.quorumVotingPower =
        if v.authors = ∅ then 0 else 2 * v.power v.authors % u64Bound / 3 + 1 := by
  simp only [new, Option.bind_eq_bind, Option.bind_eq_some_iff, Option.pure_def,
    Option.some.injEq] at h
  obtain ⟨total, htotal, hv⟩ := h
  obtain ⟨hsum, _⟩ := foldlM_votingPower (by decide) htotal
  have hinfos : v.addressToValidatorInfo = infos := by rw [← hv]
  have hpower : total = v.power v.authors := by
    rw [hsum, zero_add, ← hinfos, sum_votingPower_eq_power]
  have hempty : v.authors = ∅ ↔ infos.isEmpty = true := by
    rw [authors, authorsOf, hinfos, toFinset_eq_empty_iff]
    simp
  refine ⟨hinfos, by rw [← hpower, ← hv], by rwa [NoOverflow, ← hpower], ?_⟩
  rw [← hpower, mul_comm]
  simp only [hempty]
  rw [← hv]

/-- A validator set built by `new` whose doubled total does not wrap around. -/
structure WellFormed (v : ValidatorVerifier) : Prop where
  built : new v.addressToValidatorInfo = some v
  double_lt : 2 * v.totalVotingPower < u64Bound

theorem WellFormed.total_eq (h : v.WellFormed) : v.totalVotingPower = v.power v.authors :=
  (new_spec h.built).2.1

theorem WellFormed.noOverflow (h : v.WellFormed) : v.NoOverflow := (new_spec h.built).2.2.1

theorem WellFormed.quorum_eq (h : v.WellFormed) (hne : v.authors.Nonempty) :
    v.quorumVotingPower = 2 * v.power v.authors / 3 + 1 := by
  have hlt := h.double_lt
  rw [h.total_eq] at hlt
  rw [(new_spec h.built).2.2.2, if_neg hne.ne_empty, mod_eq_of_lt hlt]

/-- The quorum system of an epoch: all validators but `faulty`. -/
def quorumSystem (v : ValidatorVerifier) (honest : Finset AccountAddress)
    (hfaulty : 3 * v.power (v.authors \ honest) < v.power v.authors) :
    QuorumSystem AccountAddress where
  members := v.authors
  weight := v.powerOf
  honest := honest
  faulty_lt := hfaulty

theorem HasQuorum.isQuorum {authors honest} (hq : v.HasQuorum authors)
    (h : v.WellFormed) (hfaulty : 3 * v.power (v.authors \ honest) < v.power v.authors) :
    (v.quorumSystem honest hfaulty).IsQuorum authors := by
  refine ⟨hq.known, ?_⟩
  have hne : v.authors.Nonempty := by
    by_contra hempty
    rw [Finset.not_nonempty_iff_eq_empty] at hempty
    simp [hempty, power] at hfaulty
  have hle := hq.power_le
  rw [h.quorum_eq hne] at hle
  change 2 * v.power v.authors < 3 * v.power authors
  omega

/-! ## Quorums of every validator set -/

structure QuorumsIntersect (v : ValidatorVerifier) : Prop where
  inter : ∀ l l' : List AccountAddress, l.Nodup → l'.Nodup → v.checkVotingPower l = .ok () →
    v.checkVotingPower l' = .ok () →
      v.power v.authors < 3 * v.power (l.toFinset ∩ l'.toFinset)
  two_thirds : ∀ l : List AccountAddress, l.Nodup →
    3 * v.power l.toFinset ≤ 2 * v.power v.authors → v.checkVotingPower l ≠ .ok ()
  all : v.checkVotingPower v.addressToValidatorInfo.keys = .ok ()

/-- Doubling the total lowers the quorum when it wraps around, which is harmless only if no set
of validators lies between the two. -/
theorem quorumsIntersect_iff {infos} (h : new infos = some v) :
    v.QuorumsIntersect ↔ 0 < v.power v.authors ∧ (2 * v.power v.authors < u64Bound ∨
      ¬ ∃ S ⊆ v.authors, (2 * v.power v.authors - u64Bound) / 3 < v.power S ∧
        3 * v.power S ≤ 2 * v.power v.authors) := by
  obtain ⟨-, -, hv, hquorum⟩ := new_spec h
  have hpass {l : List AccountAddress} (hl : l.Nodup) := checkVotingPower_iff hv hl
  have hkeys := hpass (nodup_keys (t := v.addressToValidatorInfo))
  have hwrap (hle : u64Bound ≤ 2 * v.power v.authors) :
      2 * v.power v.authors % u64Bound = 2 * v.power v.authors - u64Bound := by
    rw [mod_eq_sub_mod hle, mod_eq_of_lt]
    simp only [NoOverflow] at hv
    omega
  constructor
  · intro hi
    have hne : v.authors ≠ ∅ := by
      intro hempty
      refine hi.two_thirds [] nodup_nil (by simp [power]) ((hpass nodup_nil).mpr ⟨by simp, ?_⟩)
      simp [hquorum, hempty]
    rw [if_neg hne] at hquorum
    have hall : v.quorumVotingPower ≤ v.power v.authors := (hkeys.mp hi.all).power_le
    refine ⟨by omega, or_iff_not_imp_left.mpr ?_⟩
    rintro hle ⟨S, hS, _, hhigh⟩
    refine hi.two_thirds S.toList S.nodup_toList (by simpa using hhigh) ?_
    rw [hpass S.nodup_toList, Finset.toList_toFinset]
    exact ⟨hS, by omega⟩
  · rintro ⟨hpos, hgap⟩
    have hne : v.authors ≠ ∅ := fun hempty => by simp [hempty, power] at hpos
    rw [if_neg hne] at hquorum
    have hmore {S} (hS : v.HasQuorum S) : 2 * v.power v.authors < 3 * v.power S := by
      have hle := hS.power_le
      by_cases hlt : 2 * v.power v.authors < u64Bound
      · rw [hquorum, mod_eq_of_lt hlt] at hle
        omega
      · rw [hquorum, hwrap (not_lt.mp hlt)] at hle
        by_contra hnot
        exact hgap.resolve_left hlt ⟨S, hS.known, by omega, not_lt.mp hnot⟩
    constructor
    case inter =>
      intro l _ hl hl' h h'
      have hq := (hpass hl).mp h
      have hq' := (hpass hl').mp h'
      exact QuorumSystem.IsQuorum.inter_weight
        (S := v.quorumSystem v.authors (by simpa [power] using hpos))
        ⟨hq.known, hmore hq⟩ ⟨hq'.known, hmore hq'⟩
    case two_thirds =>
      intro l hl hle h
      exact absurd (hmore ((hpass hl).mp h)) (not_lt.mpr hle)
    case all =>
      refine hkeys.mpr ⟨subset_rfl, ?_⟩
      have hle := mod_le (2 * v.power v.authors) u64Bound
      change v.quorumVotingPower ≤ v.power v.authors
      omega

def threePowers : BTreeMap AccountAddress ValidatorConsensusInfo :=
  (((∅ : BTreeMap _ _).insert 1 ⟨7, 1⟩).insert 2 ⟨8, 2⟩).insert 3 ⟨9, 4⟩

theorem quorumsIntersect_iff_threePowers :
    ∃ v, new threePowers = some v ∧ v.quorumVotingPower = 5 ∧ v.QuorumsIntersect := by
  have hnew : new threePowers = some _ := rfl
  exact ⟨_, hnew, by decide, (quorumsIntersect_iff hnew).mpr ⟨by decide, .inl (by decide)⟩⟩

/-- Two validators of power `2 ^ 62`: the doubled total is 0 and each one alone is a quorum. -/
theorem halves_not_quorumsIntersect :
    ∃ v, new (((∅ : BTreeMap AccountAddress ValidatorConsensusInfo).insert 1 ⟨7, 2 ^ 62⟩).insert 2
        ⟨8, 2 ^ 62⟩) = some v ∧ v.checkVotingPower [1] = .ok () ∧
      v.checkVotingPower [2] = .ok () ∧ ¬ v.QuorumsIntersect := by
  refine ⟨_, rfl, by decide, by decide, fun h => ?_⟩
  exact absurd (h.inter [1] [2] (by decide) (by decide) (by decide) (by decide)) (by decide)

end ValidatorVerifier

end Loki.Diem
