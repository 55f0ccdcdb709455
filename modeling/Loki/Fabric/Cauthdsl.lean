import Mathlib.Algebra.Order.Ring.Int
import Mathlib.Data.List.Basic
import Mathlib.Data.List.Nodup
import Loki.Foundation.Call

/-!
# Signature policies

`common/cauthdsl/cauthdsl.go` and `policy.go`.  A policy is compiled into an evaluator, a function
of the signed data and of one flag for each of them that says whether it is used up.  A gate hands
every rule a copy of the flags and keeps the copy only when the rule succeeds.

The identities, the principals and the cryptography are those of an `IdentityDeserializer`.  The
flags are as many as the signatures before duplicates are removed, so that no index is out of
range, and no evaluator changes their number.
-/

namespace Loki.Fabric.Cauthdsl

open Loki.Foundation List Prod Nat

structure IdentityIdentifier where
  mspid : String
  id : String
  deriving DecidableEq, Repr

structure SignedData where
  data : List UInt8
  identity : List UInt8
  signature : List UInt8
  deriving DecidableEq, Inhabited, Repr

structure IdentityDeserializer (Identity Principal : Type) where
  deserializeIdentity : List UInt8 → Except String Identity
  getIdentifier : Identity → IdentityIdentifier
  satisfiesPrincipal : Identity → Principal → Except String Unit
  verify : Identity → List UInt8 → List UInt8 → Except String Unit

/-- A pointer to a policy may be nil, and a policy may have no type set. -/
inductive SignaturePolicy where
  | empty
  | untyped
  | signedBy (index : Int)
  | nOutOf (n : Int) (rules : List SignaturePolicy)

structure SignaturePolicyEnvelope (Principal : Type) where
  rule : SignaturePolicy
  identities : List Principal

/-- What `compile` returns: whether the policy is satisfied, and the flags it leaves. -/
abbrev Evaluator := List SignedData → List Bool → Bool × List Bool

/-- Signed integers of 32 bits wrap around. -/
def toInt32 (n : Int) : Int := n.bmod (2 ^ 32)

variable {Identity Principal : Type} (msp : IdentityDeserializer Identity Principal)

/-- The key under which `deduplicate` remembers an identity. -/
def identityKey (identity : Identity) : String :=
  (msp.getIdentifier identity).mspid ++ (msp.getIdentifier identity).id

def deduplicateFrom (ids : List String) : List SignedData → List SignedData
  | [] => []
  | sd :: sds =>
    match msp.deserializeIdentity sd.identity with
    | .error _ => deduplicateFrom ids sds
    | .ok identity =>
      if identityKey msp identity ∈ ids then deduplicateFrom ids sds
      else sd :: deduplicateFrom (identityKey msp identity :: ids) sds

def deduplicate (sds : List SignedData) : List SignedData := deduplicateFrom msp [] sds

/-- The identity can be read, satisfies the principal and has signed the data. -/
def signs (principal : Principal) (sd : SignedData) : Bool :=
  match msp.deserializeIdentity sd.identity with
  | .error _ => false
  | .ok identity =>
    match msp.satisfiesPrincipal identity principal with
    | .error _ => false
    | .ok _ =>
      match msp.verify identity sd.data sd.signature with
      | .error _ => false
      | .ok _ => true

/-- The loop of a compiled `SignedBy`, from index `i` on. -/
def evaluateSignedBy (principal : Principal) : Nat → Evaluator
  | _, [], used => (false, used)
  | i, sd :: signedData, used =>
    if used.getD i false then evaluateSignedBy principal (i + 1) signedData used
    else if signs msp principal sd then (true, used.set i true)
    else evaluateSignedBy principal (i + 1) signedData used

/-- The loop of a compiled `NOutOf`. -/
def countVerified (signedData : List SignedData) : List Evaluator → Int → List Bool →
    Int × List Bool
  | [], verified, used => (verified, used)
  | policy :: policies, verified, used =>
    if (policy signedData used).1 then
      countVerified signedData policies (toInt32 (verified + 1)) (policy signedData used).2
    else countVerified signedData policies verified used

def evaluateNOutOf (n : Int) (policies : List Evaluator) : Evaluator := fun signedData used =>
  (decide (n ≤ (countVerified signedData policies 0 used).1),
    (countVerified signedData policies 0 used).2)

theorem toNat_lt_of_lt_toInt32 {index} {length : Nat} (hindex : 0 ≤ index)
    (hlt : index < toInt32 length) : index.toNat < length := by
  have hle : toInt32 length ≤ length := by
    rw [toInt32, Int.bmod_def]
    split <;> omega
  omega

mutual

def compile (identities : List Principal) : SignaturePolicy → Except String Evaluator
  | .empty => .error "Empty policy element"
  | .untyped => .error "Unknown type: <nil>:<nil>"
  | .signedBy index =>
    if h : 0 ≤ index ∧ index < toInt32 identities.length then
      .ok (evaluateSignedBy msp
        (identities.get ⟨index.toNat, toNat_lt_of_lt_toInt32 h.1 h.2⟩) 0)
    else .error
      s!"identity index out of range, requested {index}, but identities length is {identities.length}"
  | .nOutOf n rules => do
    let policies ← compileRules identities rules
    return evaluateNOutOf n policies

def compileRules (identities : List Principal) :
    List SignaturePolicy → Except String (List Evaluator)
  | [] => .ok []
  | rule :: rules => do
    let policy ← compile identities rule
    let policies ← compileRules identities rules
    return policy :: policies

end

/-- `EnvelopeBasedPolicyProvider.NewPolicy`. -/
def newPolicy (sigPolicy : Option (SignaturePolicyEnvelope Principal)) : Except String Evaluator :=
  match sigPolicy with
  | none => .error "invalid arguments"
  | some envelope => compile msp envelope.identities envelope.rule

/-- `policy.Evaluate`. -/
def evaluate (policy : Option Evaluator) (signatureSet : List SignedData) : Except String Unit :=
  match policy with
  | none => .error "No such policy"
  | some evaluator =>
    if (evaluator (deduplicate msp signatureSet)
        (replicate signatureSet.length false)).1 then .ok ()
    else .error "signature set did not satisfy policy"

/-! ## What a policy asks for -/

mutual

/-- Leaves, given by their principals, that satisfy every threshold on the way to the root. -/
inductive Fulfils : SignaturePolicy → List Int → Prop
  | signedBy {index} : Fulfils (.signedBy index) [index]
  | nOutOf {n : Int} {rules count leaves} : FulfilsRules rules count leaves → n ≤ count →
      Fulfils (.nOutOf n rules) leaves

/-- The leaves fulfil `count` of the rules.  A rule is gone through once, so that no leaf is chosen
twice. -/
inductive FulfilsRules : List SignaturePolicy → Nat → List Int → Prop
  | nil : FulfilsRules [] 0 []
  | skip {rule rules count leaves} : FulfilsRules rules count leaves →
      FulfilsRules (rule :: rules) count leaves
  | take {rule rules count below leaves} : Fulfils rule below → FulfilsRules rules count leaves →
      FulfilsRules (rule :: rules) (count + 1) (below ++ leaves)

end

/-- The identity of the signed data satisfies the principal with this index, and the signature is
valid. -/
def Signs (identities : List Principal) (index : Int) (sd : SignedData) : Prop :=
  ∃ principal, 0 ≤ index ∧ identities[index.toNat]? = some principal ∧
    signs msp principal sd = true

/-- Signed data of two identities. -/
def DifferentIdentities (sd sd' : SignedData) : Prop :=
  ∀ identity identity', msp.deserializeIdentity sd.identity = .ok identity →
    msp.deserializeIdentity sd'.identity = .ok identity' →
    msp.getIdentifier identity ≠ msp.getIdentifier identity'

/-- Leaves that fulfil the policy, each with signed data of its own identity. -/
structure Assigns (envelope : SignaturePolicyEnvelope Principal) (signatureSet : List SignedData)
    (assignment : List (Int × SignedData)) : Prop where
  fulfils : Fulfils envelope.rule (assignment.map fst)
  mem : ∀ a ∈ assignment, a.2 ∈ signatureSet
  signs : ∀ a ∈ assignment, Signs msp envelope.identities a.1 a.2
  different : assignment.Pairwise fun a b => DifferentIdentities msp a.2 b.2

section

variable {msp} {principal : Principal} {sd : SignedData} {used : List Bool} {policy : Evaluator}
  {rules : List SignaturePolicy} {sd' : SignedData}

theorem signs_eq_true_iff : signs msp principal sd = true ↔
    ∃ identity, msp.deserializeIdentity sd.identity = .ok identity ∧
      msp.satisfiesPrincipal identity principal = .ok () ∧
      msp.verify identity sd.data sd.signature = .ok () := by
  unfold signs
  cases msp.deserializeIdentity sd.identity with
  | error => simp
  | ok identity =>
    cases hprincipal : msp.satisfiesPrincipal identity principal with
    | error => simp [hprincipal]
    | ok =>
      cases hverify : msp.verify identity sd.data sd.signature with
      | error | ok => simp [hprincipal, hverify]

/-! ## Flags -/

section

variable (used : List Bool)

/-- The flags with some of them set. -/
def mark (indices : List Nat) : List Bool :=
  indices.foldl (fun used i => used.set i true) used

@[simp] theorem mark_append (front back : List Nat) :
    mark used (front ++ back) = mark (mark used front) back :=
  foldl_append

@[simp] theorem length_mark (indices : List Nat) : (mark used indices).length = used.length := by
  induction indices generalizing used with
  | nil => rfl
  | cons _ _ ih => exact (ih _).trans (length_set ..)

end

theorem getElem?_mark_eq_false {indices} {j : Nat} :
    (mark used indices)[j]? = some false ↔ used[j]? = some false ∧ j ∉ indices := by
  induction indices generalizing used with
  | nil => simp [mark]
  | cons i indices ih =>
    have hstep : mark used (i :: indices) = mark (used.set i true) indices := rfl
    rw [hstep, ih, getElem?_set, mem_cons, not_or]
    by_cases hij : i = j
    · subst hij
      by_cases hlt : i < used.length <;> simp [hlt]
    · simp [hij, Ne.symm hij]

/-! ## Soundness -/

theorem evaluateSignedBy_eq_true {i} {signedData : List SignedData}
    (h : (evaluateSignedBy msp principal i signedData used).1 = true) :
    ∃ j sd, signedData[j]? = some sd ∧ signs msp principal sd = true ∧
      used.getD (i + j) false = false ∧
      (evaluateSignedBy msp principal i signedData used).2 = mark used [i + j] := by
  induction signedData generalizing i with
  | nil => simp [evaluateSignedBy] at h
  | cons sd signedData ih =>
    have hlater : (evaluateSignedBy msp principal (i + 1) signedData used).1 = true →
        ∃ j sd', (sd :: signedData)[j]? = some sd' ∧ signs msp principal sd' = true ∧
          used.getD (i + j) false = false ∧
          (evaluateSignedBy msp principal (i + 1) signedData used).2 = mark used [i + j] := by
      intro h
      obtain ⟨j, sd', hget, hsigns, hfree, hused⟩ := ih h
      rw [add_assoc, add_comm 1 j] at hfree hused
      exact ⟨j + 1, sd', hget, hsigns, hfree, hused⟩
    rw [evaluateSignedBy] at h ⊢
    by_cases hused : used.getD i false = true
    · rw [if_pos hused] at h ⊢
      exact hlater h
    rw [if_neg hused] at h ⊢
    by_cases hsigns : signs msp principal sd = true
    · rw [if_pos hsigns] at h ⊢
      exact ⟨0, sd, rfl, hsigns, by simpa using hused, rfl⟩
    · rw [if_neg hsigns] at h ⊢
      exact hlater h

theorem toInt32_le {n} (h : -2 ^ 31 ≤ n) : toInt32 n ≤ n ∧ -2 ^ 31 ≤ toInt32 n := by
  rw [toInt32, Int.bmod_def]
  split <;> omega

variable {identities : List Principal} {signedData : List SignedData}

variable (msp identities signedData) in
/-- Every leaf has signed data of its own, none of which is used. -/
structure Fits (used : List Bool) (assignment : List (Int × Nat)) : Prop where
  nodup : (assignment.map snd).Nodup
  free : ∀ a ∈ assignment, used[a.2]? = some false
  signs : ∀ a ∈ assignment, ∃ sd, signedData[a.2]? = some sd ∧ Signs msp identities a.1 sd

theorem Fits.nil (used : List Bool) : Fits msp identities signedData used [] where
  nodup := nodup_nil
  free := by simp
  signs := by simp

/-- The data used up by the one part are not free for the other. -/
theorem Fits.append {front back} (hfront : Fits msp identities signedData used front)
    (hback : Fits msp identities signedData (mark used (front.map snd)) back) :
    Fits msp identities signedData used (front ++ back) where
  nodup := by
    rw [map_append]
    apply Nodup.append hfront.nodup hback.nodup
    intro i hi hi'
    obtain ⟨a, ha, rfl⟩ := mem_map.mp hi'
    exact (getElem?_mark_eq_false.mp (hback.free a ha)).2 hi
  free := by
    intro a ha
    rcases mem_append.mp ha with ha | ha
    · exact hfront.free a ha
    · exact (getElem?_mark_eq_false.mp (hback.free a ha)).1
  signs := by
    intro a ha
    rcases mem_append.mp ha with ha | ha
    · exact hfront.signs a ha
    · exact hback.signs a ha

theorem compile_signedBy_eq_ok {index} (h : compile msp identities (.signedBy index) = .ok policy) :
    ∃ principal, 0 ≤ index ∧ identities[index.toNat]? = some principal ∧
      policy = evaluateSignedBy msp principal 0 := by
  rw [compile] at h
  split at h
  next hindex =>
    refine ⟨_, hindex.1, getElem?_eq_getElem (toNat_lt_of_lt_toInt32 hindex.1 hindex.2), ?_⟩
    cases h
    rfl
  · cases h

theorem compile_nOutOf_eq_ok {n} (h : compile msp identities (.nOutOf n rules) = .ok policy) :
    ∃ policies, compileRules msp identities rules = .ok policies ∧
      policy = evaluateNOutOf n policies := by
  simp only [compile, bind_eq_ok, pure_eq_ok] at h
  obtain ⟨policies, hpolicies, rfl⟩ := h
  exact ⟨policies, hpolicies, rfl⟩

theorem compileRules_cons_eq_ok {rule} {policies : List Evaluator}
    (h : compileRules msp identities (rule :: rules) = .ok policies) :
    ∃ policy rest, compile msp identities rule = .ok policy ∧
      compileRules msp identities rules = .ok rest ∧ policies = policy :: rest := by
  simp only [compileRules, bind_eq_ok, pure_eq_ok] at h
  obtain ⟨policy, hpolicy, rest, hrest, rfl⟩ := h
  exact ⟨policy, rest, hpolicy, hrest, rfl⟩

mutual

/-- A policy that succeeds has used up the data of leaves that fulfil it, and no others. -/
theorem compile_sound : ∀ {rule policy used},
    compile msp identities rule = .ok policy → signedData.length ≤ used.length →
    (policy signedData used).1 = true →
    ∃ assignment : List (Int × Nat), Fulfils rule (assignment.map fst) ∧
      Fits msp identities signedData used assignment ∧
      (policy signedData used).2 = mark used (assignment.map snd)
  | .empty, _, _, h, _, _ | .untyped, _, _, h, _, _ => by simp [compile] at h
  | .signedBy index, _, used, h, hlength, htrue => by
    obtain ⟨principal, hindex, hprincipal, rfl⟩ := compile_signedBy_eq_ok h
    obtain ⟨j, _, hget, hsigns, hfree, hused⟩ := evaluateSignedBy_eq_true htrue
    rw [zero_add] at hfree hused
    have hlt : j < used.length := lt_of_lt_of_le (List.getElem?_eq_some_iff.mp hget).1 hlength
    refine ⟨[(index, j)], .signedBy, ⟨nodup_singleton j, ?_, ?_⟩, hused⟩
    · simpa [getD_eq_getElem?_getD, hlt] using hfree
    · simpa [hget, Signs] using ⟨hindex, principal, hprincipal, hsigns⟩
  | .nOutOf n rules, _, used, h, hlength, htrue => by
    obtain ⟨_, hpolicies, rfl⟩ := compile_nOutOf_eq_ok h
    obtain ⟨_, assignment, hfulfils, hfits, hused, _⟩ :=
      compileRules_sound hpolicies hlength (v := 0) (by decide)
    rw [evaluateNOutOf, decide_eq_true_eq] at htrue
    exact ⟨assignment, .nOutOf hfulfils (by omega), hfits, hused⟩

theorem compileRules_sound : ∀ {rules} {policies : List Evaluator}
    {used v}, compileRules msp identities rules = .ok policies →
    signedData.length ≤ used.length → -2 ^ 31 ≤ v →
    ∃ (count : Nat) (assignment : List (Int × Nat)),
      FulfilsRules rules count (assignment.map fst) ∧
      Fits msp identities signedData used assignment ∧
      (countVerified signedData policies v used).2 = mark used (assignment.map snd) ∧
      (countVerified signedData policies v used).1 ≤ v + count
  | [], _, used, v, h, _, _ => by
    cases h
    exact ⟨0, [], .nil, .nil used, rfl, by simp [countVerified]⟩
  | rule :: rules, _, used, v, h, hlength, hv => by
    obtain ⟨_, _, hpolicy, hpolicies, rfl⟩ := compileRules_cons_eq_ok h
    rw [countVerified]
    split
    next htrue =>
      obtain ⟨below, hbelow, hfits, hused⟩ := compile_sound hpolicy hlength htrue
      rw [hused]
      have hwrap : toInt32 (v + 1) ≤ v + 1 ∧ -2 ^ 31 ≤ toInt32 (v + 1) := toInt32_le (by omega)
      have hlength' : signedData.length ≤ (mark used (below.map snd)).length := by rwa [length_mark]
      obtain ⟨count, rest, hrest, hfits', hused', hcount⟩ :=
        compileRules_sound hpolicies hlength' hwrap.2
      refine ⟨count + 1, below ++ rest, ?_, hfits.append hfits', ?_, by omega⟩
      · rw [map_append]
        exact .take hbelow hrest
      · rw [hused', map_append, mark_append]
    · obtain ⟨count, rest, hrest, hfits, hused, hcount⟩ :=
        compileRules_sound hpolicies hlength hv
      exact ⟨count, rest, .skip hrest, hfits, hused, hcount⟩

end

/-! ## Identities without duplicates -/

variable {ids : List String} {sds : List SignedData}

theorem mem_deduplicateFrom (h : sd ∈ deduplicateFrom msp ids sds) :
    sd ∈ sds ∧ ∃ identity, msp.deserializeIdentity sd.identity = .ok identity ∧
      identityKey msp identity ∉ ids := by
  fun_induction deduplicateFrom msp ids sds with
  | case1 => simp at h
  | case2 ids first sds e hread ih | case3 ids first sds identity hread hseen ih =>
    obtain ⟨hmem, hkey⟩ := ih h
    exact ⟨mem_cons_of_mem _ hmem, hkey⟩
  | case4 ids first sds identity hread hnew ih =>
    rcases mem_cons.mp h with rfl | h
    · exact ⟨mem_cons_self, identity, hread, hnew⟩
    · obtain ⟨hmem, identity', hread', hkey⟩ := ih h
      rw [mem_cons, not_or] at hkey
      exact ⟨mem_cons_of_mem _ hmem, identity', hread', hkey.2⟩

theorem length_deduplicateFrom_le : (deduplicateFrom msp ids sds).length ≤ sds.length := by
  fun_induction deduplicateFrom msp ids sds with
  | case1 => simp
  | case2 | case3 | case4 =>
    simp only [length_cons]
    omega

variable (msp) in
/-- Signed data that `deduplicate` takes for those of two identities. -/
def DifferentKeys (sd sd' : SignedData) : Prop :=
  ∀ identity identity', msp.deserializeIdentity sd.identity = .ok identity →
    msp.deserializeIdentity sd'.identity = .ok identity' →
    identityKey msp identity ≠ identityKey msp identity'

theorem DifferentKeys.symm {sd} (h : DifferentKeys msp sd sd') : DifferentKeys msp sd' sd :=
  fun identity identity' hread hread' => (h identity' identity hread' hread).symm

theorem DifferentKeys.differentIdentities {sd} (h : DifferentKeys msp sd sd') :
    DifferentIdentities msp sd sd' := by
  intro identity identity' hread hread' heq
  apply h identity identity' hread hread'
  rw [identityKey, identityKey, heq]

theorem pairwise_deduplicateFrom : (deduplicateFrom msp ids sds).Pairwise (DifferentKeys msp) := by
  fun_induction deduplicateFrom msp ids sds with
  | case1 => exact .nil
  | case2 _ _ _ _ _ ih | case3 _ _ _ _ _ _ ih => exact ih
  | case4 ids first sds identity hread hnew ih =>
    refine Pairwise.cons ?_ ih
    intro _ hlater _ _ hfirst hlater' heq
    rw [hread] at hfirst
    cases hfirst
    obtain ⟨-, _, hread', hkey⟩ := mem_deduplicateFrom hlater
    rw [hlater'] at hread'
    cases hread'
    rw [mem_cons, not_or] at hkey
    exact hkey.1 heq.symm

theorem differentKeys_of_ne {i j : Nat} {sd : SignedData} (hne : i ≠ j)
    (hi : (deduplicate msp sds)[i]? = some sd) (hj : (deduplicate msp sds)[j]? = some sd') :
    DifferentKeys msp sd sd' := by
  have hpairwise : (deduplicate msp sds).Pairwise (DifferentKeys msp) := pairwise_deduplicateFrom
  rw [pairwise_iff_getElem] at hpairwise
  obtain ⟨hilt, rfl⟩ := List.getElem?_eq_some_iff.mp hi
  obtain ⟨hjlt, rfl⟩ := List.getElem?_eq_some_iff.mp hj
  rcases lt_or_gt_of_ne hne with hlt | hlt
  · exact hpairwise i j hilt hjlt hlt
  · exact (hpairwise j i hjlt hilt hlt).symm

theorem exists_mem_deduplicateFrom {identity} (hsd : sd ∈ sds)
    (hread : msp.deserializeIdentity sd.identity = .ok identity) :
    identityKey msp identity ∈ ids ∨ ∃ sd' ∈ deduplicateFrom msp ids sds, ∃ identity',
      msp.deserializeIdentity sd'.identity = .ok identity' ∧
      identityKey msp identity' = identityKey msp identity := by
  fun_induction deduplicateFrom msp ids sds with
  | case1 => simp at hsd
  | case2 ids first sds e hfirst ih =>
    rcases mem_cons.mp hsd with rfl | hsd
    · rw [hread] at hfirst
      cases hfirst
    · exact ih hsd
  | case3 ids first sds identity' hfirst hseen ih =>
    rcases mem_cons.mp hsd with rfl | hsd
    · rw [hread] at hfirst
      cases hfirst
      exact .inl hseen
    · exact ih hsd
  | case4 ids first sds identity' hfirst hnew ih =>
    rcases mem_cons.mp hsd with rfl | hsd
    · rw [hread] at hfirst
      exact .inr ⟨sd, mem_cons_self, identity, hread, rfl⟩
    · rcases ih hsd with hmem | ⟨sd', hsd', hkey⟩
      · rcases mem_cons.mp hmem with heq | hmem
        · exact .inr ⟨first, mem_cons_self, identity', hfirst, heq.symm⟩
        · exact .inl hmem
      · exact .inr ⟨sd', mem_cons_of_mem _ hsd', hkey⟩

/-- The signed data behind the indices of an assignment. -/
def withData (signedData : List SignedData) (assignment : List (Int × Nat)) :
    List (Int × SignedData) :=
  assignment.map fun a => (a.1, signedData.getD a.2 default)

theorem Fits.assigns {envelope : SignaturePolicyEnvelope Principal} {assignment : List (Int × Nat)}
    (h : Fits msp envelope.identities (deduplicate msp sds) used assignment)
    (hfulfils : Fulfils envelope.rule (assignment.map fst)) :
    Assigns msp envelope sds (withData (deduplicate msp sds) assignment) where
  fulfils := by simpa [withData, Function.comp_def] using hfulfils
  mem := by
    intro b hb
    obtain ⟨a, ha, rfl⟩ := mem_map.mp hb
    obtain ⟨sd, hget, -⟩ := h.signs a ha
    rw [getD_eq_getElem?_getD, hget]
    exact (mem_deduplicateFrom (mem_of_getElem? hget)).1
  signs := by
    intro b hb
    obtain ⟨a, ha, rfl⟩ := mem_map.mp hb
    obtain ⟨sd, hget, hsigns⟩ := h.signs a ha
    rw [getD_eq_getElem?_getD, hget]
    exact hsigns
  different := by
    have hnodup := h.nodup
    rw [Nodup, pairwise_map] at hnodup
    rw [withData, pairwise_map]
    refine hnodup.imp_of_mem ?_
    intro a b ha hb hne
    obtain ⟨_, hget, -⟩ := h.signs a ha
    obtain ⟨_, hget', -⟩ := h.signs b hb
    rw [getD_eq_getElem?_getD, getD_eq_getElem?_getD, hget, hget']
    exact (differentKeys_of_ne hne hget hget').differentIdentities

theorem evaluate_eq_ok : evaluate msp (some policy) sds = .ok () ↔
    (policy (deduplicate msp sds) (replicate sds.length false)).1 = true := by
  unfold evaluate
  split <;> simp_all

theorem length_deduplicate_le :
    (deduplicate msp sds).length ≤ (replicate sds.length false).length := by
  rw [length_replicate]
  exact length_deduplicateFrom_le

theorem assigns_of_evaluate {envelope : SignaturePolicyEnvelope Principal}
    (hpolicy : newPolicy msp (some envelope) = .ok policy)
    (haccept : evaluate msp (some policy) sds = .ok ()) :
    ∃ assignment, Assigns msp envelope sds assignment := by
  obtain ⟨_, hfulfils, hfits, -⟩ :=
    compile_sound hpolicy length_deduplicate_le (evaluate_eq_ok.mp haccept)
  exact ⟨_, hfits.assigns hfulfils⟩

end

/-- A policy accepts only a list in which different identities have signed for different leaves
that fulfil it. -/
theorem evaluate_sound (envelope : SignaturePolicyEnvelope Principal) (policy : Evaluator)
    (signatureSet : List SignedData) (hpolicy : newPolicy msp (some envelope) = .ok policy)
    (haccept : evaluate msp (some policy) signatureSet = .ok ()) :
    ∃ assignment, Assigns msp envelope signatureSet assignment :=
  assigns_of_evaluate hpolicy haccept

/-- An organisation with a member and an administrator, who is a member as well.  Both identities
and principals are told apart by whether they are those of an administrator. -/
def org1 : IdentityDeserializer Bool Bool where
  deserializeIdentity identity :=
    if identity = [0] then .ok false
    else if identity = [1] then .ok true
    else .error "unknown identity"
  getIdentifier admin := ⟨"org1", if admin then "admin" else "member"⟩
  satisfiesPrincipal admin principal :=
    if principal ∧ ¬ admin then .error "not an admin" else .ok ()
  verify _ _ signature := if signature = [1] then .ok () else .error "invalid signature"

/-- Both the administrator and a member must sign. -/
def adminAndMember : SignaturePolicyEnvelope Bool :=
  ⟨.nOutOf 2 [.signedBy 0, .signedBy 1], [true, false]⟩

theorem newPolicy_adminAndMember : newPolicy org1 (some adminAndMember) =
    .ok (evaluateNOutOf 2 [evaluateSignedBy org1 true 0, evaluateSignedBy org1 false 0]) := by
  simp [newPolicy, adminAndMember, compile, compileRules, toInt32, bind, Except.bind, pure,
    Except.pure]

theorem evaluate_sound_adminAndMember :
    ∃ policy, newPolicy org1 (some adminAndMember) = .ok policy ∧
      evaluate org1 (some policy) [⟨[], [0], [1]⟩, ⟨[], [1], [1]⟩] = .ok () ∧
      ∃ assignment, Assigns org1 adminAndMember [⟨[], [0], [1]⟩, ⟨[], [1], [1]⟩] assignment := by
  have haccept : evaluate org1 (some (evaluateNOutOf 2
      [evaluateSignedBy org1 true 0, evaluateSignedBy org1 false 0]))
      [⟨[], [0], [1]⟩, ⟨[], [1], [1]⟩] = .ok () := by decide +kernel
  exact ⟨_, newPolicy_adminAndMember, haccept,
    evaluate_sound org1 adminAndMember _ _ newPolicy_adminAndMember haccept⟩

end Loki.Fabric.Cauthdsl
