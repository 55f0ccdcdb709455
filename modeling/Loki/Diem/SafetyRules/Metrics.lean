import Loki.Diem.SafetyRules.Rules

/-!
# Safety rules that initialise themselves

`consensus/src/metrics_safety_rules.rs`: a call that finds the rules without a signer, or in another
epoch, is made a second time after the rules have been initialised from the epoch change proof in
storage.  Below, what it takes for the signature on a proposal to be given.
-/

namespace Loki.Diem

open Loki.Foundation Call PersistentSafetyStorage SecureStorage Error Option

structure ConsensusState where
  safetyData : SafetyData
  waypoint : Waypoint
  inValidatorSet : Bool
  deriving DecidableEq

/-- `retrieve_epoch_change_proof` of the storage. -/
abbrev EpochProofs := Nat → Except String EpochChangeProof

namespace SafetyRules

def consensusState : Method ConsensusState := do
  let _ ← onStorage waypoint
  let _ ← onStorage safetyData
  -- for the log
  let _ ← onStorage author
  let safetyData ← onStorage safetyData
  let waypoint ← onStorage waypoint
  let signer ← gets validatorSigner
  return { safetyData := safetyData, waypoint := waypoint, inValidatorSet := signer.isSome }

variable (C : Crypto) (proofs : EpochProofs)

def performInitialize : Method Unit := do
  let state ← consensusState
  let proof ← check (mapErr (fun e => .internalError
    s!"Unable to retrieve Waypoint state from storage, encountered Error:{e}")
    (proofs state.waypoint.version))
  guardedInitialize C proof

def retry {α : Type} (f : Method α) : Method α := do
  match ← f.attempt with
  | .ok a => return a
  | .error (.error (.notInitialized _)) =>
    performInitialize C proofs
    f
  | .error (.error (.incorrectEpoch _ _)) =>
    performInitialize C proofs
    f
  | .error fault => lift (.error fault)

end SafetyRules

/-! ## Signatures on proposals -/

namespace PersistentSafetyStorage

def readable (storage : PersistentSafetyStorage) : Option SafetyData :=
  if storage.enableCachedSafetyData = false then
    none
  else
    match storage.cachedSafetyData with
    | some data => some data
    | none =>
      match storage.internalStore.outcomes.head?.getD .done with
      | .done => storage.internalStore.safetyData
      | .failed _ _ => none

def afterRead (storage : PersistentSafetyStorage) : PersistentSafetyStorage :=
  match storage.cachedSafetyData with
  | some _ => storage
  | none =>
    { storage with
      cachedSafetyData := storage.internalStore.safetyData
      internalStore := storage.internalStore.advance }

end PersistentSafetyStorage

def retried : Fault Error → Bool
  | .error (.notInitialized _) | .error (.incorrectEpoch _ _) => true
  | _ => false

@[simp] theorem retried_ofStorage (e : StorageError) : retried (ofStorage e) = false := by
  cases e <;> rfl

namespace PersistentSafetyStorage

variable {storage : PersistentSafetyStorage}

theorem exec_onStore {α} (x : SecureStorage.Access α) :
    (onStore x).exec storage =
      (match (x.exec storage.internalStore).1 with
        | .ok a => .ok a
        | .error (.error e) => .error (ofStorage e)
        | .error (.panic message) => .error (.panic message),
       { storage with internalStore := (x.exec storage.internalStore).2 }) := rfl

theorem exec_onStore_read {α} (name : String) (field : SecureStorage → Option α) :
    (onStore (read name field)).exec storage =
      (match storage.internalStore.outcomes.head?.getD .done with
        | .failed error _ => .error (ofStorage error.toStorageError)
        | .done =>
          match field storage.internalStore.advance with
          | some a => .ok a
          | none => .error (ofStorage (.keyNotSet name)),
       { storage with internalStore := storage.internalStore.advance }) := by
  rw [exec_onStore, exec_read]
  cases storage.internalStore.outcomes.head?.getD .done with
  | failed error applied => rfl
  | done => cases field storage.internalStore.advance <;> rfl

theorem exec_safetyData (storage : PersistentSafetyStorage) :
    match storage.readable with
    | some data => safetyData.exec storage = (.ok data, storage.afterRead)
    | none => ∃ fault t, safetyData.exec storage = (.error fault, t) ∧ retried fault = false := by
  unfold readable
  by_cases hcaching : storage.enableCachedSafetyData = false
  · -- the value that is read is never what is asked for
    simp only [safetyData, exec_bind, exec_gets, id, hcaching, if_true,
      exec_onStore_read, exec_lift]
    cases storage.internalStore.outcomes.head?.getD .done with
    | failed error applied => exact ⟨_, _, rfl, retried_ofStorage _⟩
    | done =>
      cases storage.internalStore.advance.safetyData with
      | none | some data => exact ⟨_, _, rfl, retried_ofStorage _⟩
  · rw [if_neg hcaching]
    cases hcached : storage.cachedSafetyData with
    | some => simp [safetyData, exec_bind, hcaching, hcached, afterRead]
    | none =>
      simp only [safetyData, exec_bind, exec_gets, id, hcaching, hcached, exec_onStore_read,
        Bool.true_eq_false, if_false, afterRead, exec_modify, exec_pure, advance]
      cases storage.internalStore.outcomes.head?.getD .done with
      | failed error applied => exact ⟨_, _, rfl, retried_ofStorage _⟩
      | done =>
        cases storage.internalStore.safetyData with
        | none => exact ⟨_, _, rfl, retried_ofStorage _⟩
        | some => rfl

end PersistentSafetyStorage

namespace SafetyRules

variable {C : Crypto} {proofs : EpochProofs} {rules : SafetyRules} {author : Author} {epoch : Nat}

def afterRead (rules : SafetyRules) : SafetyRules :=
  { rules with persistentStorage := rules.persistentStorage.afterRead }

def HasKey (C : Crypto) (rules : SafetyRules) : ConfigurableValidatorSigner → Prop
  | .signer _ _ => True
  | .handle _ version =>
    rules.persistentStorage.internalStore.outcomes.head?.getD .done = .done ∧
      ∃ key ∈ rules.persistentStorage.internalStore.consensusKeys, C.publicKey key = version

def SignsFor (C : Crypto) (rules : SafetyRules) (author : Author) (epoch : Nat) : Prop :=
  ∃ signer data, rules.validatorSigner = some signer ∧ signer.author = author ∧
    rules.persistentStorage.readable = some data ∧ data.epoch = epoch ∧
    rules.afterRead.HasKey C signer

/-- The rules have no signer, or are in another epoch; in the second case the state in which that
is found out is the one after the safety data has been read. -/
inductive OutOfDate (rules : SafetyRules) (author : Author) (epoch : Nat) : SafetyRules → Prop
  | noSigner (h : rules.validatorSigner = none) : OutOfDate rules author epoch rules
  | otherEpoch {signer : ConfigurableValidatorSigner} {data : SafetyData}
      (hsigner : rules.validatorSigner = some signer) (hauthor : signer.author = author)
      (hdata : rules.persistentStorage.readable = some data) (hepoch : data.epoch ≠ epoch) :
      OutOfDate rules author epoch rules.afterRead

theorem OutOfDate.of_signer {signer t}
    (h : rules.OutOfDate author epoch t) (hsigner : rules.validatorSigner = some signer) :
    signer.author = author ∧
      ∃ data, rules.persistentStorage.readable = some data ∧ data.epoch ≠ epoch := by
  cases h with
  | noSigner hnone =>
    rw [hsigner] at hnone
    cases hnone
  | otherEpoch hsome hauthor hdata hepoch =>
    rw [hsigner, some.injEq] at hsome
    exact ⟨hsome ▸ hauthor, _, hdata, hepoch⟩

theorem OutOfDate.unique {t t'} (h : rules.OutOfDate author epoch t)
    (h' : rules.OutOfDate author epoch t') : t = t' := by
  cases h with
  | noSigner hnone =>
    cases h' with
    | noSigner => rfl
    | otherEpoch hsome => simp [hnone] at hsome
  | otherEpoch hsome =>
    cases h' with
    | noSigner hnone => simp [hnone] at hsome
    | otherEpoch => rfl

theorem exec_signUsingVersion_isOk (store : SecureStorage) (version : PublicKey)
    (message) :
    (∃ signature,
        ((signUsingVersion C version message).exec store).1 = .ok signature) ↔
      store.outcomes.head?.getD .done = .done ∧
        ∃ key ∈ store.consensusKeys, C.publicKey key = version := by
  have hkeys : store.advance.consensusKeys = store.consensusKeys := rfl
  simp only [signUsingVersion, exportPrivateKeyForVersion, exec_bind, exec_read, hkeys]
  cases houtcome : store.outcomes.head?.getD .done with
  | failed => simp
  | done =>
    by_cases hnil : store.consensusKeys = []
    · simp [hnil, okOr, mapErr]
    · cases hfind : store.consensusKeys.find? fun key => C.publicKey key == version with
      | none =>
        have hnot : ¬∃ key ∈ store.consensusKeys, C.publicKey key = version := by
          simpa using List.find?_eq_none.mp hfind
        simp [hnil, okOr, mapErr, hfind, hnot]
      | some key =>
        have hkey : ∃ key ∈ store.consensusKeys, C.publicKey key = version :=
          ⟨key, List.mem_of_find?_eq_some hfind, by simpa using List.find?_some hfind⟩
        simp [hnil, okOr, mapErr, hfind, hkey]

section

variable {signer : ConfigurableValidatorSigner} (hsigner : rules.validatorSigner = some signer)

include hsigner

theorem exec_getSigner_of_some : getSigner.exec rules = (.ok signer, rules) := by
  simp [getSigner, exec_bind, hsigner, okOr, mapErr]

theorem exec_sign_isOk (message) :
    (∃ signature, ((sign C message).exec rules).1 = .ok signature) ↔ rules.HasKey C signer := by
  simp only [sign, exec_bind, exec_getSigner_of_some hsigner, onStorage, exec_onPart]
  cases signer with
  | signer => simp [ConfigurableValidatorSigner.sign, HasKey]
  | handle _ version =>
    rw [HasKey, ← exec_signUsingVersion_isOk _ version message]
    simp only [ConfigurableValidatorSigner.sign, PersistentSafetyStorage.sign, exec_onStore]
    cases ((SecureStorage.signUsingVersion C version message).exec
      rules.persistentStorage.internalStore).1 with
    | ok => simp
    | error fault => cases fault <;> simp

theorem retried_of_sign_error {message fault t}
    (h : (sign C message).exec rules = (.error fault, t)) : retried fault = false := by
  simp only [sign, exec_bind, exec_getSigner_of_some hsigner, onStorage, exec_onPart] at h
  cases signer with
  | signer => simp [ConfigurableValidatorSigner.sign] at h
  | handle =>
    simp only [ConfigurableValidatorSigner.sign, PersistentSafetyStorage.sign,
      exec_onStore, Prod.mk.injEq] at h
    obtain ⟨h, -⟩ := h
    split at h
    · cases h
    · cases h
      exact retried_ofStorage _
    · cases h
      rfl

variable {data : BlockData}

theorem signsFor_iff : rules.SignsFor C author epoch ↔ signer.author = author ∧
    ∃ safetyData, rules.persistentStorage.readable = some safetyData ∧
      safetyData.epoch = epoch ∧ rules.afterRead.HasKey C signer := by
  constructor
  · rintro ⟨_, safetyData, hsome, hsame, hrest⟩
    rw [hsigner, some.injEq] at hsome
    exact ⟨hsome ▸ hsame, safetyData, hsome ▸ hrest⟩
  · rintro ⟨hsame, safetyData, hrest⟩
    exact ⟨signer, safetyData, hsigner, hsame, hrest⟩

theorem exec_verifyAuthor (hauthor : data.author = some signer.author) :
    (verifyAuthor data.author).exec rules = (.ok (), rules) := by
  simp [verifyAuthor, exec_bind, exec_getSigner_of_some hsigner, hauthor, okOr, mapErr, ensure]

theorem exec_signProposal_of_otherAuthor (hauthor : data.author = some author)
    (hne : signer.author ≠ author) : (signProposal C data).exec rules =
      (.error (.error (.invalidProposal "Proposal author is not validator signer!")), rules) := by
  simp [signProposal, verifyAuthor, exec_bind, exec_getSigner_of_some hsigner, hauthor, hne,
    okOr, mapErr, ensure]

theorem exec_signProposal_of_unreadable (hauthor : data.author = some signer.author)
    (hread : rules.persistentStorage.readable = none) :
    ∃ fault t, (signProposal C data).exec rules = (.error fault, t) ∧ retried fault = false := by
  have h := rules.persistentStorage.exec_safetyData
  rw [hread] at h
  obtain ⟨fault, storage, hexec, hfault⟩ := h
  refine ⟨fault, { rules with persistentStorage := storage }, ?_, hfault⟩
  simp [signProposal, exec_bind, exec_getSigner_of_some hsigner,
    exec_verifyAuthor hsigner hauthor, onStorage, hexec]

theorem exec_signProposal_of_readable (hauthor : data.author = some signer.author)
    {safetyData} (hread : rules.persistentStorage.readable = some safetyData) :
    (signProposal C data).exec rules =
      if data.epoch = safetyData.epoch then (sign C (.blockData data)).exec rules.afterRead
      else (.error (.error (.incorrectEpoch data.epoch safetyData.epoch)), rules.afterRead) := by
  have h := rules.persistentStorage.exec_safetyData
  rw [hread] at h
  have hexec : (onStorage PersistentSafetyStorage.safetyData).exec rules =
      (.ok safetyData, rules.afterRead) := by
    simp [onStorage, h, afterRead]
  by_cases hepoch : data.epoch = safetyData.epoch <;>
    simp [signProposal, exec_bind, exec_getSigner_of_some hsigner,
      exec_verifyAuthor hsigner hauthor, hexec, SafetyData.verifyEpoch, hepoch, mapErr, ensure]

end

theorem exec_signProposal_cases (C : Crypto) (rules) {data}
    (hauthor : data.author = some author) :
    (rules.SignsFor C author data.epoch ∧
      ∃ signature t, (signProposal C data).exec rules = (.ok signature, t)) ∨
    ¬rules.SignsFor C author data.epoch ∧
      ∃ fault t, (signProposal C data).exec rules = (.error fault, t) ∧
        (retried fault = true ∧ rules.OutOfDate author data.epoch t ∨
          retried fault = false ∧ ∀ t', ¬rules.OutOfDate author data.epoch t') := by
  cases hsigner : rules.validatorSigner with
  | none =>
    refine .inr ⟨?_, .error (.notInitialized "validator_signer"), rules, ?_, ?_⟩
    · rintro ⟨signer, data, h, -⟩
      rw [hsigner] at h
      cases h
    · simp [signProposal, getSigner, exec_bind, hsigner, okOr, mapErr]
    · exact .inl ⟨rfl, .noSigner hsigner⟩
  | some signer =>
    rw [signsFor_iff hsigner]
    by_cases hsame : signer.author = author
    · subst hsame
      cases hread : rules.persistentStorage.readable with
      | none =>
        obtain ⟨fault, t, hexec, hfault⟩ :=
          exec_signProposal_of_unreadable hsigner hauthor hread
        refine .inr ⟨by simp, fault, t, hexec, .inr ⟨hfault, fun t' h => ?_⟩⟩
        obtain ⟨-, safetyData, hsome, -⟩ := h.of_signer hsigner
        rw [hread] at hsome
        cases hsome
      | some safetyData =>
        have hexec := exec_signProposal_of_readable (C := C) hsigner hauthor hread
        by_cases hepoch : data.epoch = safetyData.epoch
        · rw [if_pos hepoch] at hexec
          have hsigner' : rules.afterRead.validatorSigner = some signer := hsigner
          have hok := exec_sign_isOk (C := C) hsigner' (.blockData data)
          rcases hsign : (sign C (.blockData data)).exec rules.afterRead with ⟨result, t⟩
          rw [hsign] at hexec hok
          cases result with
          | ok => exact .inl ⟨⟨rfl, safetyData, rfl, hepoch.symm, hok.mp ⟨_, rfl⟩⟩, _, _, hexec⟩
          | error fault =>
            have hno : ¬rules.afterRead.HasKey C signer := by simpa using hok.not
            have hfault := retried_of_sign_error hsigner' hsign
            refine .inr ⟨by simp [hno], fault, t, hexec, .inr ⟨hfault, fun t' h => ?_⟩⟩
            obtain ⟨-, _, hother, hne⟩ := h.of_signer hsigner
            rw [hread, some.injEq] at hother
            exact hne (hother ▸ hepoch.symm)
        · rw [if_neg hepoch] at hexec
          refine .inr ⟨by simp [Ne.symm hepoch], _, _, hexec, .inl ⟨rfl, ?_⟩⟩
          exact .otherEpoch hsigner rfl hread (Ne.symm hepoch)
    · refine .inr ⟨by simp [hsame], _, _,
        exec_signProposal_of_otherAuthor hsigner hauthor hsame, .inr ⟨rfl, fun _ h => ?_⟩⟩
      exact hsame (h.of_signer hsigner).1

def Recovers (C : Crypto) (proofs : EpochProofs) (rules : SafetyRules) (author : Author)
    (epoch : Nat) : Prop :=
  ∃ t u, rules.OutOfDate author epoch t ∧ (performInitialize C proofs).exec t = (.ok (), u) ∧
    u.SignsFor C author epoch

theorem exec_retry {α} (f : Method α) :
    (retry C proofs f).exec rules =
      match f.exec rules with
      | (.ok a, t) => (.ok a, t)
      | (.error fault, t) =>
        if retried fault then (performInitialize C proofs >>= fun _ => f).exec t
        else (.error fault, t) := by
  rw [retry, exec_bind, exec_attempt]
  rcases f.exec rules with ⟨result, t⟩
  cases result with
  | ok => rfl
  | error fault =>
    cases fault with
    | panic => rfl
    | error e => cases e <;> rfl

theorem retry_signProposal_isOk {data} (hauthor : data.author = some author) :
    (∃ signature t, (retry C proofs (signProposal C data)).exec rules = (.ok signature, t)) ↔
      rules.SignsFor C author data.epoch ∨ rules.Recovers C proofs author data.epoch := by
  rw [exec_retry]
  rcases exec_signProposal_cases C rules hauthor with
    ⟨hsigns, signature, t, hexec⟩ | ⟨hno, fault, t, hexec, ⟨hfault, hdate⟩ | ⟨hfault, hdate⟩⟩
  · rw [hexec]
    exact iff_of_true ⟨signature, t, rfl⟩ (.inl hsigns)
  · simp only [hexec, hfault, if_true, exec_bind, hno, false_or]
    constructor
    · rintro ⟨_, _, hok⟩
      rcases hinit : (performInitialize C proofs).exec t with ⟨result, u⟩
      rw [hinit] at hok
      cases result with
      | error => cases hok
      | ok =>
        refine ⟨t, u, hdate, hinit, ?_⟩
        rcases exec_signProposal_cases C u hauthor with
          ⟨hsigns, -⟩ | ⟨-, _, _, hexec', -⟩
        · exact hsigns
        · simp [hexec'] at hok
    · rintro ⟨t', u, hdate', hinit, hsigns⟩
      rw [← hdate.unique hdate'] at hinit
      rcases exec_signProposal_cases C u hauthor with ⟨-, hok⟩ | ⟨hno', -⟩
      · simpa [hinit] using hok
      · exact absurd hsigns hno'
  · simp only [hexec, hfault, hno, false_or]
    refine iff_of_false (by simp) ?_
    rintro ⟨t', u, hdate', -⟩
    exact hdate t' hdate'

end SafetyRules

end Loki.Diem
