import Loki.Fabric.StateBasedValidator

/-!
# Valid transactions are serializable

A transaction is valid if what it has read is what it would read in the ledger of the valid
transactions before it, and the batch of a block is what these make of the committed state, one
after the other.
-/

namespace Loki.Fabric

open Loki.Foundation RangeQueryHashValidator Ledger CombinedIterator List Except DB Prod

/-! ## Reads on a ledger -/

variable (C : Codec) (db : DB) (ledger : Ledger)

def Ledger.ReadsVersion (ck : CompositeKey) (version : Option Height) : Prop :=
  ledger.writer ck = none ∧ (db.get ck).map (·.version) = version

/-- What a range query gives, from the scan of its range; the end key is included where the
iterator was not exhausted. -/
def Ledger.rereads (ns : Bytes) (rqi : RangeQueryInfo) (scan : List VersionedKV) : List KVRead :=
  scan.map newKVRead ++
    if rqi.itrExhausted then []
    else (ledger.store ⟨ns, [], rqi.endKey⟩).toList.map fun vv => ⟨rqi.endKey, some vv.version⟩

def Recorded (kvReads : List KVRead) : Option ReadsInfo → Prop
  | none => kvReads = []
  | some (.rawReads recorded) => kvReads = recorded
  | some (.readsMerkleHashes summary) =>
    ∃ pending, queryResults C summary.maxDegree kvReads = .ok (pending, some summary)

def Ledger.ReadsRange (ns : Bytes) (rqi : RangeQueryInfo) : Prop :=
  ∃ scan, IsScan (fun key => ledger.store ⟨ns, [], key⟩)
      (inRange rqi.startKey rqi.endKey · = true) scan ∧
    Recorded C (ledger.rereads ns rqi scan) rqi.readsInfo

def Ledger.Validates (rwset : TxRwSet) : Prop :=
  ∀ nsRwSet ∈ rwset.nsRwSets,
    (∀ kvRead ∈ nsRwSet.kvRwSet.reads,
      ledger.ReadsVersion db ⟨nsRwSet.nameSpace, [], kvRead.key⟩ kvRead.version) ∧
    (∀ rqi ∈ nsRwSet.kvRwSet.rangeQueriesInfo, ledger.ReadsRange C nsRwSet.nameSpace rqi) ∧
    ∀ coll ∈ nsRwSet.collHashedRwSets, ∀ kvReadHash ∈ coll.hashedRwSet.hashedReads,
      ledger.ReadsVersion db ⟨nsRwSet.nameSpace, coll.collectionName, kvReadHash.keyHash⟩
        kvReadHash.version

def TxRwSet.NamesCollections (rwset : TxRwSet) : Prop :=
  ∀ nsRwSet ∈ rwset.nsRwSets, ∀ coll ∈ nsRwSet.collHashedRwSets, coll.collectionName ≠ []

instance (rwset : TxRwSet) : Decidable rwset.NamesCollections :=
  inferInstanceAs (Decidable (∀ nsRwSet ∈ rwset.nsRwSets, ∀ coll ∈ nsRwSet.collHashedRwSets,
    coll.collectionName ≠ []))

/-! ## The checks decide it -/

namespace Validator

variable {C : Codec} {db : DB} {u : PubAndHashUpdates} {ledger : Ledger}

section

variable (h : Represents db u ledger)

include h

theorem writer_eq_none_iff (ck : CompositeKey) : ledger.writer ck = none ↔ u.get ck = none := by
  have hck := h ck
  generalize u.get ck = batch at hck
  generalize ledger.store ck = store at hck
  generalize ledger.writer ck = writer at hck
  cases hck <;> simp

theorem validateKVRead_iff (ns : Bytes) (kvRead) :
    validateKVRead db ns u.pubUpdates kvRead = true ↔
      ledger.ReadsVersion db ⟨ns, [], kvRead.key⟩ kvRead.version := by
  have hget : u.get ⟨ns, [], kvRead.key⟩ = u.pubUpdates.get ns kvRead.key := if_pos rfl
  have hdb : db.get ⟨ns, [], kvRead.key⟩ = db.getState ns kvRead.key := if_pos rfl
  rw [ReadsVersion, writer_eq_none_iff h, hget, hdb, validateKVRead, UpdateBatch.existsKey_eq]
  cases u.pubUpdates.get ns kvRead.key with
  | none => simp [areSame_iff, getVersion]
  | some => simp

theorem validateKVReadHash_iff (ns : Bytes) {coll} (hcoll : coll ≠ []) (kvReadHash) :
    validateKVReadHash db ns coll u.hashUpdates kvReadHash = true ↔
      ledger.ReadsVersion db ⟨ns, coll, kvReadHash.keyHash⟩ kvReadHash.version := by
  have hget : u.get ⟨ns, coll, kvReadHash.keyHash⟩ =
      u.hashUpdates.get ns coll kvReadHash.keyHash := if_neg hcoll
  have hdb : db.get ⟨ns, coll, kvReadHash.keyHash⟩ =
      db.getValueHash ns coll kvReadHash.keyHash := if_neg hcoll
  rw [ReadsVersion, writer_eq_none_iff h, hget, hdb, validateKVReadHash, UpdateMap.contains_eq]
  cases u.hashUpdates.get ns coll kvReadHash.keyHash with
  | none => simp [areSame_iff, getKeyHashVersion]
  | some => simp

theorem live_eq_store (ns key : Bytes) :
    live db u.pubUpdates ns key = ledger.store ⟨ns, [], key⟩ := by
  have hck := h ⟨ns, [], key⟩
  have hget : u.get ⟨ns, [], key⟩ = u.pubUpdates.get ns key := if_pos rfl
  have hdb : db.get ⟨ns, [], key⟩ = db.getState ns key := if_pos rfl
  have hvalue vv (hvv : db.getState ns key = some vv) : vv.isDelete = false :=
    db.get_isSome (hdb.trans hvv)
  rw [hget, hdb] at hck
  unfold live latest
  generalize u.pubUpdates.get ns key = batch at hck
  generalize ledger.store ⟨ns, [], key⟩ = store at hck
  generalize ledger.writer ⟨ns, [], key⟩ = writer at hck
  cases hck with
  | untouched =>
    cases hstate : db.getState ns key with
    | none => rfl
    | some vv => simp [Option.filter, hvalue vv hstate]
  | deleted => rfl
  | present _ hdelete => simp [Option.filter, hdelete]

theorem combinedResults_eq (ns : Bytes) (rqi : RangeQueryInfo) :
    ∃ scan, IsScan (fun key => ledger.store ⟨ns, [], key⟩)
        (inRange rqi.startKey rqi.endKey · = true) scan ∧
      (combinedResults db ns rqi u.pubUpdates).map newKVRead = ledger.rereads ns rqi scan := by
  obtain ⟨scan, hscan, hresults⟩ := toList_new db u.pubUpdates ns rqi.startKey
    rqi.endKey (!rqi.itrExhausted)
  refine ⟨scan, hscan.congr fun _ _ => ?_, ?_⟩
  · rw [live_eq_store h]
  · rw [combinedResults, hresults, map_append, live_eq_store h, rereads]
    cases rqi.itrExhausted with
    | true => rfl
    | false => cases ledger.store ⟨ns, [], rqi.endKey⟩ <;> rfl

end

/-- The hashes decide for summaries of every degree; one below two is never made. -/
theorem hashValidate_eq_true_iff (inMerkle : QueryReadsMerkleSummary) (results : List KVRead) :
    validate C inMerkle results = .ok true ↔
      ∃ pending, queryResults C inMerkle.maxDegree results = .ok (pending, some inMerkle) := by
  by_cases hdegree : 2 ≤ inMerkle.maxDegree
  · exact validate_eq_true_iff hdegree results
  · have hlt : inMerkle.maxDegree < 2 := Nat.lt_of_not_le hdegree
    simp [validate, init, queryResults,
      RangeQueryResultsHelper.new, MerkleTree.new, hlt, bind, Except.bind]

section

variable (h : Represents db u ledger)

include h

theorem validateRangeQuery_iff (ns : Bytes) (rqi : RangeQueryInfo) :
    validateRangeQuery C db ns rqi u.pubUpdates = .ok true ↔ ledger.ReadsRange C ns rqi := by
  obtain ⟨scan, hscan, hresults⟩ := combinedResults_eq h ns rqi
  have hreads : ledger.ReadsRange C ns rqi ↔
      Recorded C (ledger.rereads ns rqi scan) rqi.readsInfo := by
    constructor
    · rintro ⟨_, hscan', hrecorded⟩
      exact hscan'.unique hscan ▸ hrecorded
    · exact fun hrecorded => ⟨scan, hscan, hrecorded⟩
  rw [hreads, ← hresults, validateRangeQuery]
  cases rqi.readsInfo with
  | none => exact rangeQueryResultsValidate_eq_true_iff ..
  | some readsInfo =>
    cases readsInfo with
    | rawReads => exact rangeQueryResultsValidate_eq_true_iff ..
    | readsMerkleHashes => exact hashValidate_eq_true_iff ..

theorem validateRangeQueries_iff (ns : Bytes) (rangeQueriesInfo : List RangeQueryInfo) :
    validateRangeQueries C db ns u.pubUpdates rangeQueriesInfo = .ok true ↔
      ∀ rqi ∈ rangeQueriesInfo, ledger.ReadsRange C ns rqi := by
  induction rangeQueriesInfo with
  | nil => simp [validateRangeQueries]
  | cons _ _ ih =>
    rw [validateRangeQueries, forall_mem_cons, ← validateRangeQuery_iff h, ← ih, bind_eq_ok]
    constructor
    · rintro ⟨valid, hvalid, hrest⟩
      cases valid with
      | true => exact ⟨hvalid, hrest⟩
      | false => cases hrest
    · rintro ⟨hvalid, hrest⟩
      exact ⟨true, hvalid, hrest⟩

theorem validateNsHashedReadSets_iff (ns : Bytes) {colls}
    (hnames : ∀ coll ∈ colls, coll.collectionName ≠ []) :
    validateNsHashedReadSets db ns colls u.hashUpdates = true ↔
      ∀ coll ∈ colls, ∀ kvReadHash ∈ coll.hashedRwSet.hashedReads,
        ledger.ReadsVersion db ⟨ns, coll.collectionName, kvReadHash.keyHash⟩
          kvReadHash.version := by
  rw [validateNsHashedReadSets, all_eq_true]
  refine forall₂_congr fun coll hcoll => ?_
  rw [validateCollHashedReadSet, all_eq_true]
  exact forall₂_congr fun kvReadHash _ => validateKVReadHash_iff h ns (hnames coll hcoll) kvReadHash

theorem validateTx_eq_valid_iff {rwset} (hnames : rwset.NamesCollections) :
    validateTx C db rwset u = .ok .valid ↔ ledger.Validates C db rwset := by
  unfold validateTx Validates
  unfold TxRwSet.NamesCollections at hnames
  generalize rwset.nsRwSets = nsRwSets at hnames ⊢
  induction nsRwSets with
  | nil => simp [validateNsRwSets]
  | cons nsRwSet _ ih =>
    rw [forall_mem_cons] at hnames
    rw [forall_mem_cons, ← ih hnames.2, ← validateRangeQueries_iff h,
      ← validateNsHashedReadSets_iff h _ hnames.1, validateNsRwSets]
    simp only [← validateKVRead_iff h, ← all_eq_true]
    rw [← validateReadSet]
    cases validateReadSet db nsRwSet.nameSpace nsRwSet.kvRwSet.reads u.pubUpdates with
    | false => simp
    | true =>
      simp only [Bool.not_true, Bool.false_eq_true, if_false, true_and, bind_eq_ok]
      constructor
      · rintro ⟨valid, hvalid, hrest⟩
        cases valid with
        | false => cases hrest
        | true =>
          cases hhashed : validateNsHashedReadSets db nsRwSet.nameSpace
              nsRwSet.collHashedRwSets u.hashUpdates with
          | false =>
            rw [hhashed] at hrest
            cases hrest
          | true =>
            rw [hhashed] at hrest
            exact ⟨⟨hvalid, rfl⟩, hrest⟩
      · rintro ⟨⟨hvalid, hhashed⟩, hrest⟩
        exact ⟨true, hvalid, by simp [hhashed, hrest]⟩

end

end Validator

/-! ## The block -/

def Ledger.committed : Ledger where
  store := db.get
  writer := fun _ => none

def Ledger.run (serializeMetadata : SerializeMetadata) (blockNum : Nat) (ledger : Ledger)
    (txs : List (Transaction × TxValidationCode)) : Ledger :=
  txs.foldl (fun ledger tx =>
    if tx.2 = .valid then
      ledger.apply serializeMetadata tx.1.rwset ⟨blockNum, tx.1.indexInBlock⟩
    else ledger) ledger

theorem represents_committed : Represents db {} (committed db) := by
  intro ck
  have hget : ({} : PubAndHashUpdates).get ck = none := by
    unfold PubAndHashUpdates.get
    split
    · simp
    · simp [UpdateMap.get]
  rw [hget]
  exact .untouched

namespace Validator

variable {C : Codec} {serializeMetadata : SerializeMetadata} {db : DB} {u u' : PubAndHashUpdates}
  {ledger : Ledger} {blockNum : Nat}

theorem step_spec (h : Represents db u ledger) {tx code}
    (hone : tx.rwset.AtMostOne) (hnames : tx.rwset.NamesCollections)
    (hstep : step C serializeMetadata db blockNum true u tx = .ok (code, u')) :
    (code = .valid ↔ ledger.Validates C db tx.rwset) ∧
      Represents db u' (ledger.run serializeMetadata blockNum [(tx, code)]) := by
  rw [step, bind_eq_ok] at hstep
  obtain ⟨code', hcode, hstep⟩ := hstep
  have hvalidate : validateTx C db tx.rwset u = .ok code' := hcode
  have hiff : code' = .valid ↔ ledger.Validates C db tx.rwset := by
    rw [← validateTx_eq_valid_iff h hnames, hvalidate, ok.injEq]
  by_cases hvalid : code' = .valid
  · rw [if_pos hvalid, bind_eq_ok] at hstep
    obtain ⟨_, hwrite, hstep⟩ := hstep
    obtain ⟨rfl, rfl⟩ := mk.inj (ok.inj hstep)
    refine ⟨hiff, ?_⟩
    rw [Ledger.run, foldl_cons, if_pos hvalid]
    exact represents_applyWriteSet hone h hwrite
  · rw [if_neg hvalid] at hstep
    obtain ⟨rfl, rfl⟩ := mk.inj (ok.inj hstep)
    refine ⟨hiff, ?_⟩
    rw [Ledger.run, foldl_cons, if_neg hvalid]
    exact h

theorem run_spec {txs} (h : Represents db u ledger) (hone : ∀ tx ∈ txs, tx.rwset.AtMostOne)
    (hnames : ∀ tx ∈ txs, tx.rwset.NamesCollections) {codes}
    (hrun : run C serializeMetadata db blockNum true u txs = .ok (codes, u')) :
    codes.length = txs.length ∧
      (∀ i tx, txs[i]? = some tx → (codes[i]? = some .valid ↔
        (ledger.run serializeMetadata blockNum ((txs.zip codes).take i)).Validates C db
          tx.rwset)) ∧
      Represents db u' (ledger.run serializeMetadata blockNum (txs.zip codes)) := by
  induction txs generalizing u ledger codes with
  | nil =>
    obtain ⟨rfl, rfl⟩ := mk.inj (ok.inj hrun)
    exact ⟨rfl, by simp, h⟩
  | cons _ _ ih =>
    rw [forall_mem_cons] at hone hnames
    rw [run, bind_eq_ok] at hrun
    obtain ⟨⟨_, _⟩, hstep, hrun⟩ := hrun
    rw [bind_eq_ok] at hrun
    obtain ⟨⟨_, _⟩, hrest, hrun⟩ := hrun
    obtain ⟨rfl, rfl⟩ := mk.inj (ok.inj hrun)
    obtain ⟨hvalid, h₁⟩ := step_spec h hone.1 hnames.1 hstep
    obtain ⟨hlength, hvalids, h₂⟩ := ih h₁ hone.2 hnames.2 hrest
    refine ⟨congrArg (· + 1) hlength, fun i tx' htx => ?_, h₂⟩
    cases i with
    | zero =>
      obtain rfl := Option.some.inj htx
      rw [getElem?_cons_zero, Option.some.injEq]
      exact hvalid
    | succ i => exact hvalids i tx' htx

/-- Validation of a block is serializable. -/
theorem validateAndPrepareBatch_serializable (block : Block)
    (hone : ∀ tx ∈ block.txs, tx.rwset.AtMostOne)
    (hnames : ∀ tx ∈ block.txs, tx.rwset.NamesCollections) {codes : List TxValidationCode}
    (hbatch : validateAndPrepareBatch C serializeMetadata db block true = .ok (codes, u)) :
    codes.length = block.txs.length ∧
      (∀ i tx, block.txs[i]? = some tx → (codes[i]? = some .valid ↔
        ((committed db).run serializeMetadata block.num
          ((block.txs.zip codes).take i)).Validates C db tx.rwset)) ∧
      Represents db u ((committed db).run serializeMetadata block.num
        (block.txs.zip codes)) :=
  run_spec (represents_committed db) hone hnames hbatch

def conflicts : Block := .ofNamespace [
  { writes := [⟨[1], false, some [7]⟩] },
  { reads := [⟨[1], none⟩] },
  { rangeQueriesInfo := [⟨[], [], true, some (.rawReads [])⟩] },
  { rangeQueriesInfo := [⟨[], [], true, some (.rawReads [⟨[1], some ⟨1, 0⟩⟩])⟩],
    metadataWrites := [⟨[1], some []⟩] }]

theorem validateAndPrepareBatch_serializable_conflicts : ∃ u,
    validateAndPrepareBatch keysCodec (fun _ => .ok []) empty conflicts
        true = .ok ([.valid, .mvccReadConflict, .phantomReadConflict, .valid], u) ∧
      Represents empty u ((committed empty).run (fun _ => .ok []) conflicts.num
        (conflicts.txs.zip [.valid, .mvccReadConflict, .phantomReadConflict, .valid])) := by
  cases hbatch : validateAndPrepareBatch keysCodec (fun _ => .ok [])
      empty conflicts true with
  | error =>
    have hok : (validateAndPrepareBatch keysCodec (fun _ => .ok [])
        empty conflicts true).isOk = true := by decide +kernel
    rw [hbatch] at hok
    cases hok
  | ok result =>
    have hcodes : (validateAndPrepareBatch keysCodec (fun _ => .ok [])
        empty conflicts true).toOption.map fst =
          some [.valid, .mvccReadConflict, .phantomReadConflict, .valid] := by decide +kernel
    rw [hbatch] at hcodes
    obtain ⟨_, u⟩ := result
    obtain rfl := Option.some.inj hcodes
    exact ⟨u, rfl, (validateAndPrepareBatch_serializable conflicts (by decide) (by decide)
      hbatch).2.2⟩

end Validator

end Loki.Fabric
