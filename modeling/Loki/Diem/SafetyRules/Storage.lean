import Loki.Diem.EpochChange

/-!
# The storage of the safety rules

`consensus/safety-rules/src/persistent_safety_storage.rs` over `secure/storage`.  Every access to
the internal store may fail; `outcomes` says what its next accesses will do, so that a statement
for every list of outcomes is a statement for every fault.  A write that fails may or may not
have reached the store.

The safety data is kept in a second, cached copy.  `Coherent` says that the copy agrees with the
store, and is what every method of the storage preserves.
-/

namespace Loki.Diem

open Loki.Foundation Call

/-- `diem_secure_storage::Error`. -/
inductive StorageError where
  | entropyError (message : String)
  | internalError (message : String)
  | keyAlreadyExists (name : String)
  | keyNotSet (name : String)
  | permissionDenied
  | serializationError (message : String)
  | keyVersionNotFound (name : String) (version : PublicKey)
  deriving DecidableEq, Repr

def StorageError.toString : StorageError → String
  | .entropyError message => s!"Entropy error: {message}"
  | .internalError message => s!"Internal error: {message}"
  | .keyAlreadyExists name => s!"Key already exists: {name}"
  | .keyNotSet name => s!"Key not set: {name}"
  | .permissionDenied => "Permission denied"
  | .serializationError message => s!"Serialization error: {message}"
  | .keyVersionNotFound name version =>
    s!"Key version not found, key name: {name}, version: {version}"

/-- The errors of the safety rules.  Where the source formats a value into the error, the value
itself is kept. -/
inductive Error where
  | incorrectEpoch (provided expected : Nat)
  | incorrectRound (round : Nat)
  | incorrectLastVotedRound (round lastVotedRound : Nat)
  | incorrectPreferredRound (round preferredRound : Nat)
  | invalidAccumulatorExtension (message : String)
  | invalidEpochChangeProof (message : String)
  | internalError (message : String)
  | invalidLedgerInfo
  | invalidProposal (message : String)
  | invalidQuorumCertificate (message : String)
  | notInitialized (field : String)
  | secureStorageMissingDataError (message : String)
  | secureStorageUnexpectedError (message : String)
  | validatorKeyNotFound (message : String)
  | validatorNotInSet (author : Author)
  | voteProposalSignatureNotFound
  | notSafeToVote (round qcRound tcRound hqcRound : Nat)
  | notSafeToTimeout (round qcRound tcRound oneChainRound : Nat)
  | invalidTimeoutCertificate (message : String)
  | inconsistentExecutionResult (ordered executed : BlockInfo)
  | invalidOrderedLedgerInfo (ledgerInfo : LedgerInfo)
  deriving DecidableEq

def ValidatorVerifier.toString (v : ValidatorVerifier) : String :=
  let entries := v.addressToValidatorInfo.toList.map fun (author, info) =>
    s!"{author}: {info.votingPower}, "
  s!"ValidatorSet: [{String.join entries}]"

def EpochState.toString (state : EpochState) : String :=
  s!"EpochState [epoch: {state.epoch}, validator: {state.verifier.toString}]"

def BlockInfo.toString (info : BlockInfo) : String :=
  let next := (info.nextEpochState.map EpochState.toString).getD "None"
  s!"BlockInfo: [epoch: {info.epoch}, round: {info.round}, id: {info.id}, executed_state_id: {info.executedStateId}, version: {info.version}, timestamp (us): {info.timestampUsecs}, next_epoch_state: {next}]"

def LedgerInfo.toString (li : LedgerInfo) : String :=
  s!"LedgerInfo: [commit_info: {li.commitInfo.toString}]"

def Error.toString : Error → String
  | .incorrectEpoch provided expected =>
    s!"Provided epoch, {provided}, does not match expected epoch, {expected}"
  | .incorrectRound round => s!"block has next round that wraps around: {round}"
  | .incorrectLastVotedRound round last =>
    s!"Provided round, {round}, is incompatible with last voted round, {last}"
  | .incorrectPreferredRound round preferred =>
    s!"Provided round, {round}, is incompatible with preferred round, {preferred}"
  | .invalidAccumulatorExtension message =>
    s!"Unable to verify that the new tree extends the parent: {message}"
  | .invalidEpochChangeProof message => s!"Invalid EpochChangeProof: {message}"
  | .internalError message => s!"Internal error: {message}"
  | .invalidLedgerInfo => "No next_epoch_state specified in the provided Ledger Info"
  | .invalidProposal message => s!"Invalid proposal: {message}"
  | .invalidQuorumCertificate message => s!"Invalid QC: {message}"
  | .notInitialized field => s!"{field} is not set, SafetyRules is not initialized"
  | .secureStorageMissingDataError message => s!"Data not found in secure storage: {message}"
  | .secureStorageUnexpectedError message =>
    s!"Unexpected error returned by secure storage: {message}"
  | .validatorKeyNotFound message => s!"Validator key not found: {message}"
  | .validatorNotInSet author =>
    s!"The validator is not in the validator set. Address not in set: {author}"
  | .voteProposalSignatureNotFound => "Vote proposal missing expected signature"
  | .notSafeToVote round qc tc hqc =>
    s!"Does not satisfy 2-chain voting rule. Round {round}, Quorum round {qc}, TC round {tc},  HQC round in TC {hqc}"
  | .notSafeToTimeout round qc tc oneChain =>
    s!"Does not satisfy 2-chain timeout rule. Round {round}, Quorum round {qc}, TC round {tc}, one-chain round {oneChain}"
  | .invalidTimeoutCertificate message => s!"Invalid TC: {message}"
  | .inconsistentExecutionResult ordered executed =>
    s!"Inconsistent Execution Result: Ordered BlockInfo doesn't match executed BlockInfo. Ordered: {ordered.toString}, Executed: {executed.toString}"
  | .invalidOrderedLedgerInfo li =>
    s!"Invalid Ordered LedgerInfoWithSignatures: Empty or at least one of executed_state_id, version, or epoch_state are not dummy value: {li.toString}"

/-- `impl From<diem_secure_storage::Error> for Error`. -/
def Error.ofStorage : StorageError → Fault Error
  | .permissionDenied => .panic
      "A permission error was thrown: PermissionDenied. Maybe the storage token needs to be renewed?"
  | .keyVersionNotFound name version =>
    .error (.secureStorageMissingDataError
      (StorageError.keyVersionNotFound name version).toString)
  | .keyNotSet name =>
    .error (.secureStorageMissingDataError (StorageError.keyNotSet name).toString)
  | error => .error (.secureStorageUnexpectedError error.toString)

/-- A failure of the medium, as opposed to an answer of the store about its contents. -/
inductive IoError where
  | entropy (message : String)
  | internal (message : String)
  | notFound (name : String)
  | permissionDenied
  | serialization (message : String)
  deriving DecidableEq, Repr

def IoError.toStorageError : IoError → StorageError
  | .entropy message => .entropyError message
  | .internal message => .internalError message
  | .notFound name => .keyNotSet name
  | .permissionDenied => .permissionDenied
  | .serialization message => .serializationError message

inductive IoOutcome where
  | done
  | failed (error : IoError) (applied : Bool)
  deriving DecidableEq, Repr

/-- The internal store.  Vault keeps a key that it already has (`refusesImport`), the key-value
stores replace it.  The consensus key has its current version first. -/
structure SecureStorage where
  refusesImport : Bool
  consensusKeys : List PrivateKey
  executionKey : Option PrivateKey
  safetyData : Option SafetyData
  ownerAccount : Option Author
  waypoint : Option Waypoint
  outcomes : List IoOutcome
  deriving DecidableEq

namespace SecureStorage

abbrev Access := Call SecureStorage StorageError

def nextOutcome : Access IoOutcome := do
  let outcomes ← gets SecureStorage.outcomes
  Call.modify fun store => { store with outcomes := store.outcomes.tail }
  return outcomes.head?.getD .done

def read {α : Type} (name : String) (field : SecureStorage → Option α) : Access α := do
  match ← nextOutcome with
  | .failed error _ => fail error.toStorageError
  | .done =>
    let value ← gets field
    check (okOr value (.keyNotSet name))

def write (update : SecureStorage → SecureStorage) : Access Unit := do
  match ← nextOutcome with
  | .failed error applied =>
    Call.modify fun store => if applied then update store else store
    fail error.toStorageError
  | .done => Call.modify update

/-- `import_private_key(CONSENSUS_KEY, ..)`. -/
def importConsensusKey (key : PrivateKey) : Access Unit := do
  let store ← gets id
  if store.refusesImport then
    match ← (read "consensus" fun store => store.consensusKeys.head?).attempt with
    | .ok _ => fail (.keyAlreadyExists "consensus")
    | .error (.error (.keyNotSet _)) =>
      write fun store => { store with consensusKeys := key :: store.consensusKeys }
    | .error fault => lift (.error fault)
  else
    write fun store => { store with consensusKeys := key :: store.consensusKeys.tail }

/-- `import_private_key(EXECUTION_KEY, ..)`. -/
def importExecutionKey (key : PrivateKey) : Access Unit := do
  let store ← gets id
  if store.refusesImport then
    match ← (read "execution" SecureStorage.executionKey).attempt with
    | .ok _ => fail (.keyAlreadyExists "execution")
    | .error (.error (.keyNotSet _)) => write fun store => { store with executionKey := some key }
    | .error fault => lift (.error fault)
  else
    write fun store => { store with executionKey := some key }

variable (C : Crypto)

def exportPrivateKeyForVersion (version : PublicKey) : Access PrivateKey := do
  let keys ← read "consensus" fun store =>
    if store.consensusKeys = [] then none else some store.consensusKeys
  check (okOr (keys.find? fun key => C.publicKey key == version)
    (.keyVersionNotFound "consensus" version))

def signUsingVersion (version : PublicKey) (message : Message) : Access Signature := do
  let key ← exportPrivateKeyForVersion C version
  return C.sign key message

variable (store : SecureStorage)

def contents : SecureStorage := { store with outcomes := [] }

def advance : SecureStorage := { store with outcomes := store.outcomes.tail }

theorem exec_nextOutcome :
    nextOutcome.exec store = (.ok (store.outcomes.head?.getD .done), store.advance) := rfl

theorem exec_read {α : Type} (name : String) (field : SecureStorage → Option α)
    (store : SecureStorage) :
    (read name field).exec store =
      (match store.outcomes.head?.getD .done with
        | .failed error _ => .error (.error error.toStorageError)
        | .done => mapErr .error (okOr (field store.advance) (.keyNotSet name)),
       store.advance) := by
  unfold read
  rw [exec_bind, exec_nextOutcome]
  cases store.outcomes.head?.getD .done <;> rfl

theorem read_ensures {α : Type} (name : String) (field : SecureStorage → Option α)
    (store : SecureStorage) :
    (read name field).Ensures store fun r t =>
      t = store.advance ∧ ∀ a, r = .ok a → field t = some a := by
  unfold Ensures
  rw [exec_read]
  refine ⟨rfl, fun a ha => ?_⟩
  split at ha
  · cases ha
  · exact okOr_eq_ok.mp (mapErr_eq_ok.mp ha)

theorem write_ensures (update : SecureStorage → SecureStorage) (store : SecureStorage) :
    (write update).Ensures store fun r t =>
      t = update store.advance ∨ (t = store.advance ∧ ∀ a, r ≠ .ok a) := by
  unfold Ensures write
  rw [exec_bind, exec_nextOutcome]
  cases store.outcomes.head?.getD .done with
  | failed _ applied =>
    cases applied with
    | true => exact .inl rfl
    | false => exact .inr ⟨rfl, nofun⟩
  | done => exact .inl rfl

theorem exportPrivateKeyForVersion_ensures (version : PublicKey) (store : SecureStorage) :
    (exportPrivateKeyForVersion C version).Ensures store fun _ t => t = store.advance := by
  refine (read_ensures _ _ store).bind ?_ ?_
  · rintro _ t ⟨rfl, -⟩
    rfl
  · rintro e t ⟨rfl, -⟩
    rfl

theorem signUsingVersion_ensures (version : PublicKey) (message) (store : SecureStorage) :
    (signUsingVersion C version message).Ensures store fun _ t => t = store.advance := by
  refine (exportPrivateKeyForVersion_ensures C version store).bind ?_ ?_
  · rintro _ t rfl
    rfl
  · rintro e t rfl
    rfl

end SecureStorage

open SecureStorage

def SafetyData.new (epoch lastVotedRound preferredRound oneChainRound : Nat)
    (lastVote : Option Vote) : SafetyData where
  epoch := epoch
  lastVotedRound := lastVotedRound
  preferredRound := preferredRound
  oneChainRound := oneChainRound
  lastVote := lastVote

structure PersistentSafetyStorage where
  enableCachedSafetyData : Bool
  cachedSafetyData : Option SafetyData
  internalStore : SecureStorage
  deriving DecidableEq

namespace PersistentSafetyStorage

abbrev Access := Call PersistentSafetyStorage Error

def onStore {α : Type} (x : SecureStorage.Access α) : Access α :=
  ExceptT.mk fun storage =>
    (match (x.exec storage.internalStore).1 with
      | .ok a => .ok a
      | .error (.error e) => .error (Error.ofStorage e)
      | .error (.panic message) => .error (.panic message),
     { storage with internalStore := (x.exec storage.internalStore).2 })

/-- `initialize_`. -/
def initializeStore (safetyData : SafetyData) (author : Author)
    (consensusPrivateKey executionPrivateKey : PrivateKey) (waypoint : Waypoint) :
    SecureStorage.Access Unit := do
  match ← (SecureStorage.importConsensusKey consensusPrivateKey).attempt with
  | .error (.error (.keyAlreadyExists _)) => return ()
  | _ =>
    SecureStorage.importExecutionKey executionPrivateKey
    SecureStorage.write fun store => { store with safetyData := some safetyData }
    SecureStorage.write fun store => { store with ownerAccount := some author }
    SecureStorage.write fun store => { store with waypoint := some waypoint }

variable (store : SecureStorage)

/-- `PersistentSafetyStorage::initialize`; there is no result when its `expect` panics. -/
def initializeStorage (author : Author)
    (consensusPrivateKey executionPrivateKey : PrivateKey) (waypoint : Waypoint)
    (enableCachedSafetyData : Bool) : Option PersistentSafetyStorage :=
  let safetyData := SafetyData.new 1 0 0 0 none
  let (result, store) := (initializeStore safetyData author consensusPrivateKey
    executionPrivateKey waypoint).exec store
  match result with
  | .ok () => some {
      enableCachedSafetyData := enableCachedSafetyData
      cachedSafetyData := some safetyData
      internalStore := store }
  | .error _ => none

def new (enableCachedSafetyData : Bool) : PersistentSafetyStorage where
  enableCachedSafetyData := enableCachedSafetyData
  cachedSafetyData := none
  internalStore := store

def author : Access Author :=
  onStore (SecureStorage.read "owner_account" SecureStorage.ownerAccount)

def safetyData : Access SafetyData := do
  let storage ← Call.gets id
  let fromStore := onStore (SecureStorage.read "safety_data" SecureStorage.safetyData)
  if storage.enableCachedSafetyData = false then
    -- `return self.internal_store.get(..).map(|v| v.value)?` asks for a stored value of the
    -- return type `Result<SafetyData, Error>`, and a stored `SafetyData` does not parse as one
    let _ ← fromStore
    Call.lift (.error (Error.ofStorage (.serializationError
      "unknown variant `epoch`, expected `Ok` or `Err`")))
  else
    match storage.cachedSafetyData with
    | some cached => return cached
    | none =>
      let data ← fromStore
      Call.modify fun storage => { storage with cachedSafetyData := some data }
      return data

def setSafetyData (data : SafetyData) : Access Unit := do
  let store ← gets PersistentSafetyStorage.internalStore
  let (result, store) := (write
    fun store => { store with safetyData := some data }).exec store
  match result with
  | .ok () =>
    Call.modify fun storage =>
      { storage with cachedSafetyData := some data, internalStore := store }
  | .error fault =>
    Call.modify fun storage => { storage with cachedSafetyData := none, internalStore := store }
    lift (.error (match fault with
      | .error error => .error (.secureStorageUnexpectedError error.toString)
      | .panic message => .panic message))

def waypoint : Access Waypoint := onStore (SecureStorage.read "waypoint" SecureStorage.waypoint)

def setWaypoint (waypoint : Waypoint) : Access Unit :=
  onStore (SecureStorage.write fun store => { store with waypoint := some waypoint })

variable (C : Crypto)

def consensusKeyForVersion (version : PublicKey) : Access PrivateKey :=
  onStore (SecureStorage.exportPrivateKeyForVersion C version)

def executionPublicKey : Access PublicKey := do
  let key ← onStore (SecureStorage.read "execution" SecureStorage.executionKey)
  return C.publicKey key

def sign (version : PublicKey) (message : Message) : Access Signature :=
  onStore (SecureStorage.signUsingVersion C version message)

/-! ## What the methods do to the store and to the cached copy -/

def Coherent (storage : PersistentSafetyStorage) : Prop :=
  ∀ data, storage.cachedSafetyData = some data →
    storage.internalStore.safetyData = some data

def contents (storage : PersistentSafetyStorage) : SecureStorage := storage.internalStore.contents

structure Unchanged (storage t : PersistentSafetyStorage) : Prop where
  contents_eq : t.contents = storage.contents
  enable_eq : t.enableCachedSafetyData = storage.enableCachedSafetyData
  coherent : storage.Coherent → t.Coherent

theorem Unchanged.refl (storage) : Unchanged storage storage :=
  ⟨rfl, rfl, id⟩

theorem Unchanged.trans {storage t t' : PersistentSafetyStorage} (h : Unchanged storage t)
    (h' : Unchanged t t') : Unchanged storage t' :=
  ⟨h'.contents_eq.trans h.contents_eq, h'.enable_eq.trans h.enable_eq,
    fun hc => h'.coherent (h.coherent hc)⟩

theorem new_coherent (enable : Bool) : (new store enable).Coherent :=
  nofun

theorem safetyData_of_contents {storage t : PersistentSafetyStorage}
    (h : t.contents = storage.contents) :
    t.internalStore.safetyData = storage.internalStore.safetyData := by
  have hdata := congrArg SecureStorage.safetyData h
  exact hdata

/-- Replacing the store by one with the same contents. -/
theorem unchanged_of_contents {storage store} (h : store.contents = storage.contents) :
    Unchanged storage { storage with internalStore := store } := by
  refine ⟨h, rfl, fun hc data hdata => ?_⟩
  have hsame := congrArg SecureStorage.safetyData h
  rw [← hc data hdata]
  exact hsame

section

variable {α : Type} {storage : PersistentSafetyStorage} {x : SecureStorage.Access α}

theorem onStore_ok {a : α} (h : ((onStore x).exec storage).1 = .ok a) :
    (x.exec storage.internalStore).1 = .ok a := by
  change (match (x.exec storage.internalStore).1 with
      | .ok a => .ok a
      | .error (.error e) => .error (Error.ofStorage e)
      | .error (.panic message) => .error (.panic message)) = Except.ok a at h
  split at h <;> simp_all

theorem onStore_ensures {post : Except (Fault StorageError) α → SecureStorage → Prop}
    (h : x.Ensures storage.internalStore post) :
    (onStore x).Ensures storage fun r t =>
      ∃ r' store, post r' store ∧ t = { storage with internalStore := store } ∧
        ∀ a, r = .ok a → r' = .ok a :=
  ⟨_, _, h, rfl, fun _ ha => onStore_ok ha⟩

theorem onStore_read_ensures (name : String) (field : SecureStorage → Option α) :
    (onStore (read name field)).Ensures storage fun r t =>
      Unchanged storage t ∧ ∀ a, r = .ok a → field t.internalStore = some a := by
  refine (onStore_ensures (read_ensures name field _)).mono ?_
  rintro r t ⟨_, _, ⟨rfl, hr'⟩, rfl, hr⟩
  exact ⟨unchanged_of_contents rfl, fun a ha => hr' a (hr a ha)⟩

theorem onStore_advance_ensures
    (h : x.Ensures storage.internalStore fun _ t => t = storage.internalStore.advance) :
    (onStore x).Ensures storage fun _ t => Unchanged storage t := by
  refine (onStore_ensures h).mono ?_
  rintro r t ⟨_, _, rfl, rfl, -⟩
  exact unchanged_of_contents rfl

end

variable {C} {storage : PersistentSafetyStorage}

theorem author_ensures : author.Ensures storage fun _ t => Unchanged storage t :=
  (onStore_read_ensures _ _).mono fun _ _ h => h.1

theorem waypoint_ensures : waypoint.Ensures storage fun r t =>
    Unchanged storage t ∧ ∀ w, r = .ok w → storage.internalStore.waypoint = some w := by
  refine (onStore_read_ensures "waypoint" SecureStorage.waypoint).mono ?_
  rintro r t ⟨hsame, hr⟩
  refine ⟨hsame, fun w hw => ?_⟩
  rw [← hr w hw]
  exact (congrArg SecureStorage.waypoint hsame.contents_eq).symm

theorem consensusKeyForVersion_ensures (version : PublicKey) :
    (consensusKeyForVersion C version).Ensures storage fun _ t => Unchanged storage t :=
  onStore_advance_ensures (exportPrivateKeyForVersion_ensures C version _)

theorem sign_ensures (version : PublicKey) (message) :
    (sign C version message).Ensures storage fun _ t => Unchanged storage t :=
  onStore_advance_ensures (signUsingVersion_ensures C version message _)

theorem executionPublicKey_ensures :
    (executionPublicKey C).Ensures storage fun _ t => Unchanged storage t := by
  refine (onStore_read_ensures "execution" executionKey).bind ?_ ?_
  · rintro _ t ⟨hsame, -⟩
    exact hsame
  · rintro e t ⟨hsame, -⟩
    exact hsame

/-- The cached copy is right, or it is not used. -/
def CacheInvariant (storage : PersistentSafetyStorage) : Prop :=
  storage.enableCachedSafetyData = false ∨ storage.Coherent

theorem safetyData_ensures (hinv : storage.CacheInvariant) :
    safetyData.Ensures storage fun r t =>
      Unchanged storage t ∧ ∀ data, r = .ok data →
        storage.internalStore.safetyData = some data := by
  refine ensures_gets_bind ?_
  have hread : (onStore (SecureStorage.read "safety_data" SecureStorage.safetyData)).Ensures
      storage fun r t => Unchanged storage t ∧ ∀ data, r = .ok data →
        storage.internalStore.safetyData = some data := by
    refine (onStore_read_ensures _ _).mono fun r t h => ⟨h.1, fun data hdata => ?_⟩
    rw [← h.2 data hdata, safetyData_of_contents h.1.contents_eq]
  split
  · refine hread.bind ?_ fun e t h => ⟨h.1, nofun⟩
    rintro data t ⟨hsame, -⟩
    exact ⟨hsame, nofun⟩
  · next hon =>
    split
    · next cached hcached =>
        refine ensures_pure ⟨Unchanged.refl _, ?_⟩
        rintro data hdata
        cases hdata
        exact hinv.resolve_left hon _ hcached
    · refine hread.bind ?_ fun e t h => ⟨h.1, nofun⟩
      rintro _ t ⟨hsame, hdata⟩
      refine ⟨⟨hsame.contents_eq, hsame.enable_eq, fun _ _ hdata' => ?_⟩, ?_⟩
      · cases hdata'
        exact (safetyData_of_contents hsame.contents_eq).trans (hdata _ rfl)
      · rintro _ hdata'
        cases hdata'
        exact hdata _ rfl

theorem setSafetyData_ensures (data) :
    (setSafetyData data).Ensures storage fun r t =>
      t.enableCachedSafetyData = storage.enableCachedSafetyData ∧ t.Coherent ∧
        (t.contents = { storage.contents with safetyData := some data } ∨
          (t.contents = storage.contents ∧ ∀ u, r ≠ .ok u)) := by
  refine ensures_gets_bind ?_
  have hwrite := write_ensures
    (fun store => { store with safetyData := some data }) storage.internalStore
  unfold Ensures at hwrite
  rcases h : (write fun store => { store with safetyData := some data }).exec
    storage.internalStore with ⟨r, store⟩
  rw [h] at hwrite
  cases r with
  | ok u =>
    rcases hwrite with rfl | ⟨-, hr⟩
    · refine ⟨rfl, fun _ hdata' => ?_, .inl rfl⟩
      cases hdata'
      rfl
    · exact absurd rfl (hr u)
  | error =>
    refine ⟨rfl, nofun, ?_⟩
    rcases hwrite with rfl | ⟨rfl, -⟩
    · exact .inl rfl
    · exact .inr ⟨rfl, nofun⟩

theorem setWaypoint_ensures (w : Waypoint) :
    (setWaypoint w).Ensures storage fun r t =>
      t.enableCachedSafetyData = storage.enableCachedSafetyData ∧
        (storage.Coherent → t.Coherent) ∧
        (t.contents = { storage.contents with waypoint := some w } ∨
          (t.contents = storage.contents ∧ ∀ u, r ≠ .ok u)) := by
  refine (onStore_ensures (write_ensures _ _)).mono ?_
  rintro r t ⟨_, _, rfl | ⟨rfl, hr'⟩, rfl, hr⟩
  · exact ⟨rfl, fun hc data hdata => hc data hdata, .inl rfl⟩
  · exact ⟨rfl, fun hc data hdata => hc data hdata, .inr ⟨rfl, fun u hu => hr' u (hr u hu)⟩⟩

end PersistentSafetyStorage

end Loki.Diem
