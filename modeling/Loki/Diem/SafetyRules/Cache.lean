import Loki.Diem.SafetyRules.Storage

/-!
# The cached safety data refines the store

A `PersistentSafetyStorage` is built by `new` or by `initialize` and then used by any sequence of
its methods, with any faults of the internal store in between.  It refines the store when
`safety_data`, whenever it answers, answers with what the store holds.

A storage built by `new` always does.  `initialize` caches fresh safety data also when it found
an initialised store and wrote nothing to it.
-/

namespace Loki.Diem

open Loki.Foundation Call

inductive StorageOp where
  | author
  | consensusKeyForVersion (version : PublicKey)
  | executionPublicKey
  | sign (version : PublicKey) (message : Message)
  | safetyData
  | setSafetyData (data : SafetyData)
  | waypoint
  | setWaypoint (waypoint : Waypoint)

namespace PersistentSafetyStorage

variable (C : Crypto)

def apply (storage : PersistentSafetyStorage) : StorageOp → PersistentSafetyStorage
  | .author => (author.exec storage).2
  | .consensusKeyForVersion version => ((consensusKeyForVersion C version).exec storage).2
  | .executionPublicKey => ((executionPublicKey C).exec storage).2
  | .sign version message => ((sign C version message).exec storage).2
  | .safetyData => (safetyData.exec storage).2
  | .setSafetyData data => ((setSafetyData data).exec storage).2
  | .waypoint => (waypoint.exec storage).2
  | .setWaypoint w => ((setWaypoint w).exec storage).2

variable (storage : PersistentSafetyStorage)

def withOutcomes (outcomes : List IoOutcome) : PersistentSafetyStorage :=
  { storage with internalStore := { storage.internalStore with outcomes := outcomes } }

def run (ops : List (StorageOp × List IoOutcome)) : PersistentSafetyStorage :=
  ops.foldl (fun storage op => (storage.withOutcomes op.2).apply C op.1) storage

def CacheRefinesStore : Prop :=
  ∀ (ops : List (StorageOp × List IoOutcome)) (outcomes : List IoOutcome) (data : SafetyData),
    (safetyData.exec ((storage.run C ops).withOutcomes outcomes)).1 = .ok data →
      (storage.run C ops).internalStore.safetyData = some data

variable {C} {storage : PersistentSafetyStorage}

theorem Unchanged.cacheInvariant {t} (h : Unchanged storage t)
    (hinv : storage.CacheInvariant) : t.CacheInvariant :=
  hinv.imp (fun hoff => h.enable_eq.trans hoff) h.coherent

theorem apply_cacheInvariant (op) (hinv : storage.CacheInvariant) :
    (storage.apply C op).CacheInvariant := by
  cases op with
  | author => exact author_ensures.cacheInvariant hinv
  | consensusKeyForVersion version =>
    exact (consensusKeyForVersion_ensures version).cacheInvariant hinv
  | executionPublicKey => exact executionPublicKey_ensures.cacheInvariant hinv
  | sign version message => exact (sign_ensures version message).cacheInvariant hinv
  | safetyData => exact (safetyData_ensures hinv).1.cacheInvariant hinv
  | setSafetyData data => exact .inr (setSafetyData_ensures data).2.1
  | waypoint => exact waypoint_ensures.1.cacheInvariant hinv
  | setWaypoint w =>
    obtain ⟨henable, hcoherent, -⟩ := @setWaypoint_ensures storage w
    exact hinv.imp henable.trans hcoherent

theorem run_cacheInvariant (ops : List (StorageOp × List IoOutcome))
    (hinv : storage.CacheInvariant) : (storage.run C ops).CacheInvariant := by
  induction ops generalizing storage with
  | nil => exact hinv
  | cons op _ ih => exact ih (apply_cacheInvariant op.1 hinv)

theorem CacheInvariant.cacheRefinesStore (hinv : storage.CacheInvariant) :
    storage.CacheRefinesStore C := by
  intro ops outcomes data hdata
  have hrun : ((storage.run C ops).withOutcomes outcomes).CacheInvariant :=
    run_cacheInvariant ops hinv
  exact (safetyData_ensures hrun).2 data hdata

theorem new_cacheInvariant (store : SecureStorage) (enable : Bool) :
    (new store enable).CacheInvariant :=
  .inr (new_coherent store enable)

/-! ## Storages built by `initialize` -/

end PersistentSafetyStorage

/-- The store has a consensus key, and says so when one is imported. -/
structure SecureStorage.KeepsKey (store : SecureStorage) : Prop where
  refuses : store.refusesImport = true
  has_key : store.consensusKeys ≠ []
  reads : store.outcomes.head?.getD .done = .done

namespace SecureStorage

theorem importConsensusKey_of_keepsKey {store} (h : store.KeepsKey)
    (key) : (importConsensusKey key).exec store =
      (.error (.error (.keyAlreadyExists "consensus")), store.advance) := by
  have hhead : store.consensusKeys.head? = some (store.consensusKeys.head h.has_key) :=
    List.head?_eq_some_head h.has_key
  simp [importConsensusKey, exec_bind, h.refuses, read, exec_nextOutcome, h.reads,
    advance, hhead, okOr, mapErr]

theorem toStorageError_ne (error : IoError) (name : String) :
    error.toStorageError ≠ .keyAlreadyExists name := by
  cases error <;> simp [IoError.toStorageError]

private theorem write_ne_keyAlreadyExists (update : SecureStorage → SecureStorage)
    (store : SecureStorage) (name : String) :
    ((write update).exec store).1 ≠ .error (.error (.keyAlreadyExists name)) := by
  unfold write
  rw [exec_bind, exec_nextOutcome]
  cases store.outcomes.head?.getD .done with
  | done => simp
  | failed => simp [exec_bind, toStorageError_ne]

theorem importConsensusKey_ne_keyAlreadyExists {store} (h : ¬store.KeepsKey)
    (key) (name : String) :
    ((importConsensusKey key).exec store).1 ≠ .error (.error (.keyAlreadyExists name)) := by
  unfold importConsensusKey
  rw [exec_bind]
  simp only [exec_gets, id_eq]
  split
  · next hrefuses =>
      rw [exec_bind]
      simp only [exec_attempt, exec_read]
      cases hreads : store.outcomes.head?.getD .done with
      | failed =>
        split
        · next hok => cases hok
        · exact write_ne_keyAlreadyExists _ _ _
        · next hfault =>
            cases hfault
            simp [toStorageError_ne]
      | done =>
        have hempty : store.consensusKeys = [] := by
          by_contra hne
          exact h ⟨hrefuses, hne, hreads⟩
        have hhead : store.advance.consensusKeys.head? = none := by simp [advance, hempty]
        simp only [hhead, okOr, mapErr]
        exact write_ne_keyAlreadyExists _ _ _
  · exact write_ne_keyAlreadyExists _ _ _

end SecureStorage

open SecureStorage

namespace PersistentSafetyStorage

section

variable {data : SafetyData} {author : Author} {consensusKey executionKey : PrivateKey}
  {w : Waypoint} {store : SecureStorage}

private theorem write_safetyData_ensures {update value}
    (hupdate : (update store.advance).safetyData = value) :
    (write update).Ensures store fun r t => ∀ u, r = .ok u → t.safetyData = value := by
  refine (write_ensures update store).mono ?_
  rintro r t (rfl | ⟨rfl, hr⟩) u hu
  · exact hupdate
  · exact absurd hu (hr u)

theorem initializeStore_ensures (h : ¬store.KeepsKey) :
    (initializeStore data author consensusKey executionKey w).Ensures store fun r t =>
      ∀ u, r = .ok u → t.safetyData = some data := by
  have himport : (importConsensusKey consensusKey).attempt.Ensures store
      fun r _ => ∀ name, r ≠ .ok (.error (.error (.keyAlreadyExists name))) := by
    intro name hname
    exact importConsensusKey_ne_keyAlreadyExists h consensusKey name (Except.ok.inj hname)
  refine himport.bind ?_ fun e t _ u hu => nomatch hu
  intro _ t hresult
  split
  · exact absurd rfl (hresult _)
  · have htrue : (importExecutionKey executionKey).Ensures t
        fun _ _ => True := trivial
    refine htrue.bind ?_ fun e t _ u hu => nomatch hu
    intro _ t _
    refine (write_safetyData_ensures rfl).bind ?_ fun e t _ u hu => nomatch hu
    intro _ t hdata
    refine (write_safetyData_ensures rfl).bind ?_ fun e t _ u hu => nomatch hu
    intro _ _ howner
    refine write_safetyData_ensures ?_
    exact (howner _ rfl).trans (hdata _ rfl)

theorem initializeStore_of_keepsKey (h : store.KeepsKey) :
    (initializeStore data author consensusKey executionKey w).exec store =
      (.ok (), store.advance) := by
  unfold initializeStore
  rw [exec_bind, exec_attempt, importConsensusKey_of_keepsKey h]
  rfl

end

section

variable {store : SecureStorage} {author : Author} {consensusKey executionKey : PrivateKey}
  {w : Waypoint} {enable : Bool}

section

variable (h : initializeStorage store author consensusKey executionKey w enable = some storage)

include h

theorem initializeStorage_spec :
    storage.enableCachedSafetyData = enable ∧
      storage.cachedSafetyData = some (SafetyData.new 1 0 0 0 none) ∧
      (store.KeepsKey → storage.internalStore = store.advance) ∧
      (¬store.KeepsKey →
        storage.internalStore.safetyData = some (SafetyData.new 1 0 0 0 none)) := by
  unfold initializeStorage at h
  simp only at h
  split at h
  · next hok =>
      cases h
      refine ⟨rfl, rfl, fun hkeeps => ?_, fun hkeeps => ?_⟩
      · rw [initializeStore_of_keepsKey hkeeps]
      · exact initializeStore_ensures hkeeps () hok
  · cases h

theorem initializeStorage_cacheRefinesStore_iff :
    storage.CacheRefinesStore C ↔
      (enable = true → store.KeepsKey →
        store.safetyData = some (SafetyData.new 1 0 0 0 none)) := by
  obtain ⟨henable, hcached, hkeeps, hwrites⟩ := initializeStorage_spec h
  constructor
  · intro hrefines hon hkeep
    have hanswer : (safetyData.exec (storage.withOutcomes [])).1 =
        .ok (SafetyData.new 1 0 0 0 none) := by
      simp [safetyData, exec_bind, withOutcomes, henable, hon, hcached]
    have hstore := hrefines [] [] _ hanswer
    rw [run, List.foldl_nil, hkeeps hkeep] at hstore
    exact hstore
  · intro hcond
    refine CacheInvariant.cacheRefinesStore ?_
    cases enable with
    | false => exact .inl henable
    | true =>
      refine .inr fun _ hdata => ?_
      rw [hcached] at hdata
      cases hdata
      by_cases hkeep : store.KeepsKey
      · rw [hkeeps hkeep]
        exact hcond rfl hkeep
      · exact hwrites hkeep

end

end

/-- Storages built by `new` refine their store; those built by `initialize` do exactly when they
do not cache, or did not find a key that the store keeps, or found fresh safety data. -/
theorem cacheRefinesStore_iff (C : Crypto) :
    (∀ (store : SecureStorage) (enable : Bool), (new store enable).CacheRefinesStore C) ∧
    (∀ (store : SecureStorage) (author : Author) (consensusKey executionKey : PrivateKey)
      (w : Waypoint) (enable : Bool) (storage : PersistentSafetyStorage),
      initializeStorage store author consensusKey executionKey w enable = some storage →
        (storage.CacheRefinesStore C ↔
          (enable = true → store.KeepsKey →
            store.safetyData = some (SafetyData.new 1 0 0 0 none)))) :=
  ⟨fun store enable => (new_cacheInvariant store enable).cacheRefinesStore,
    fun _ _ _ _ _ _ _ h => initializeStorage_cacheRefinesStore_iff h⟩

def freshVault : SecureStorage where
  refusesImport := true
  consensusKeys := []
  executionKey := none
  safetyData := none
  ownerAccount := none
  waypoint := none
  outcomes := []

def usedVault : SecureStorage where
  refusesImport := true
  consensusKeys := [7]
  executionKey := some 8
  safetyData := some (SafetyData.new 9 8 1 0 none)
  ownerAccount := some 1
  waypoint := some { version := 0, value := 0 }
  outcomes := []

/-- What `initialize` makes of a store. -/
def cachingOver (store : SecureStorage) : PersistentSafetyStorage where
  enableCachedSafetyData := true
  cachedSafetyData := some (SafetyData.new 1 0 0 0 none)
  internalStore := store

theorem cacheRefinesStore_iff_freshVault :
    ∃ storage, initializeStorage freshVault 1 7 8 { version := 0, value := 0 } true =
        some storage ∧ storage.CacheRefinesStore .concrete :=
  ⟨_, rfl, ((cacheRefinesStore_iff .concrete).2 freshVault 1 7 8 _ true _ rfl).mpr
    fun _ hkeeps => absurd rfl hkeeps.has_key⟩

/-- Initialising over the used store forgets the vote in round 8. -/
theorem initializeStorage_usedVault_stale :
    initializeStorage usedVault 1 7 8 { version := 0, value := 0 } true =
        some (cachingOver usedVault) ∧
      ¬(cachingOver usedVault).CacheRefinesStore .concrete := by
  refine ⟨rfl, fun hrefines => ?_⟩
  have hstore := hrefines [] [] (SafetyData.new 1 0 0 0 none) rfl
  revert hstore
  decide

end PersistentSafetyStorage

end Loki.Diem
