import Loki.Fabric.StateBasedValidator

/-!
# Transactions that crash the validator

The validator dereferences the versions of raw reads, ignores that a helper could not be made,
panics on a put of a nil value, and compares hashes of a tree that may have risen.  A block whose
transactions do none of this, each in the state that it finds, is validated without a panic.
-/

namespace Loki.Fabric

open Loki.Foundation List Option RangeQueryHashValidator TxRwSet

namespace Validator

variable {C : Codec} {serializeMetadata : SerializeMetadata} {db : DB} {updates : UpdateBatch}
  {u : PubAndHashUpdates} {rwset : TxRwSet}

def SafeReads (C : Codec) (results : List VersionedKV) : Option ReadsInfo → Prop
  | none => True
  | some (.rawReads kvReads) => ∀ kvRead ∈ kvReads, kvRead.version.isSome = true
  | some (.readsMerkleHashes summary) => 2 ≤ summary.maxDegree ∧
      ¬ Overtaken C summary (results.map newKVRead)

/-- The transaction can be validated and applied after these updates. -/
structure Safe (C : Codec) (db : DB) (u : PubAndHashUpdates) (rwset : TxRwSet) : Prop where
  reads : ∀ nsRwSet ∈ rwset.nsRwSets, ∀ rqi ∈ nsRwSet.kvRwSet.rangeQueriesInfo,
    SafeReads C (combinedResults db nsRwSet.nameSpace rqi u.pubUpdates) rqi.readsInfo
  atMostOne : rwset.AtMostOne
  value_isSome : ∀ ck value, (ck, .write false value) ∈ rwset.operations → value.isSome = true
  not_deleted : ∀ ck entries, (ck, .metadata entries) ∈ rwset.operations →
    (∀ isDelete value, (ck, .write isDelete value) ∉ rwset.operations) →
    ∀ vv, u.get ck = some vv → vv.isDelete = false

/-! ## Range queries -/

theorem validateRangeQuery_ne_panic {ns rqi}
    (h : SafeReads C (combinedResults db ns rqi updates) rqi.readsInfo) (message : String) :
    validateRangeQuery C db ns rqi updates ≠ .error (.panic message) := by
  unfold validateRangeQuery
  cases hinfo : rqi.readsInfo with
  | none => exact rangeQueryResultsValidate_ne_panic (by simp) _ message
  | some readsInfo =>
    rw [hinfo] at h
    cases readsInfo with
    | rawReads => exact rangeQueryResultsValidate_ne_panic h _ message
    | readsMerkleHashes =>
      exact fun hpanic => h.2 ((validate_panics_iff h.1 _).mp ⟨message, hpanic⟩)

theorem bind_ne_panic {α β x} {f : α → Outcome β} {message}
    (hx : x ≠ .error (.panic message)) (hf : ∀ a, x = .ok a → f a ≠ .error (.panic message)) :
    (x >>= f) ≠ .error (.panic message) := by
  cases x with
  | error =>
    intro h
    exact hx (congrArg Except.error (Except.error.inj h))
  | ok a => exact hf a rfl

theorem validateRangeQueries_ne_panic {ns rangeQueriesInfo} (h : ∀ rqi ∈ rangeQueriesInfo,
      SafeReads C (combinedResults db ns rqi updates) rqi.readsInfo) (message : String) :
    validateRangeQueries C db ns updates rangeQueriesInfo ≠ .error (.panic message) := by
  induction rangeQueriesInfo with
  | nil => simp [validateRangeQueries]
  | cons _ _ ih =>
    rw [forall_mem_cons] at h
    refine bind_ne_panic (validateRangeQuery_ne_panic h.1 message) fun _ _ => ?_
    split
    · simp
    · exact ih h.2

theorem validateNsRwSets_ne_panic {nsRwSets}
    (h : ∀ nsRwSet ∈ nsRwSets, ∀ rqi ∈ nsRwSet.kvRwSet.rangeQueriesInfo,
      SafeReads C (combinedResults db nsRwSet.nameSpace rqi u.pubUpdates) rqi.readsInfo)
    (message : String) : validateNsRwSets C db u nsRwSets ≠ .error (.panic message) := by
  induction nsRwSets with
  | nil => simp [validateNsRwSets]
  | cons _ _ ih =>
    rw [forall_mem_cons] at h
    rw [validateNsRwSets]
    split
    · simp
    · refine bind_ne_panic (validateRangeQueries_ne_panic h.1 message) fun _ _ => ?_
      split
      · simp
      · split
        · simp
        · exact ih h.2

/-! ## Writes -/

theorem mem_operations_of_mem {ck op}
    (h : op ∈ TxOps.operationsOf ck rwset.operations) : (ck, op) ∈ rwset.operations := by
  obtain ⟨⟨_, _⟩, hmem, rfl⟩ := mem_map.mp h
  obtain ⟨hmem, hck⟩ := mem_filter.mp hmem
  rw [← of_decide_eq_true hck]
  exact hmem

theorem Safe.isAllowed (h : Safe C db u rwset) {ck outcome}
    (houtcome : outcomeOf serializeMetadata rwset u db ck = some outcome) :
    outcome.isAllowed = true := by
  unfold outcomeOf at houtcome
  cases hchange : rwset.changeOf serializeMetadata ck with
  | mk write metadata =>
    rw [hchange] at houtcome
    obtain ⟨hwrite, hmetadata⟩ := KeyChange.mk.inj hchange
    match write, metadata with
    | none, none => cases houtcome
    | some .delete, _ =>
      obtain rfl := some.inj houtcome
      rfl
    | some (.upsert value), metadata =>
      obtain rfl := some.inj houtcome
      obtain ⟨op, hop, hvalue⟩ := exists_of_findSome?_eq_some hwrite
      match op, hvalue with
      | .write false _, hvalue =>
        obtain rfl := Write.upsert.inj (some.inj hvalue)
        exact h.value_isSome ck _ (mem_operations_of_mem hop)
    | none, some metadata =>
      obtain ⟨vv, hlatest, rfl⟩ := map_eq_some_iff.mp houtcome
      obtain ⟨op, hop, hentries⟩ := exists_of_findSome?_eq_some hmetadata
      rw [findSome?_eq_none_iff] at hwrite
      suffices hdelete : vv.isDelete = false from isNone_eq_false_iff.mp hdelete
      match op, hentries with
      | .metadata entries, _ =>
        cases hget : u.get ck with
        | none =>
          rw [hget, none_or] at hlatest
          exact db.get_isSome hlatest
        | some =>
          rw [hget, some_or] at hlatest
          obtain rfl := some.inj hlatest
          refine h.not_deleted ck entries (mem_operations_of_mem hop)
            (fun isDelete value hmem => ?_) _ hget
          have hnone := hwrite (.write isDelete value)
            (mem_map.mpr ⟨_, mem_filter.mpr ⟨hmem, by simp⟩, rfl⟩)
          cases isDelete <;> cases hnone

theorem Safe.applyWriteSet_ne_panic (h : Safe C db u rwset) (txHeight : Height) (message : String) :
    u.applyWriteSet serializeMetadata rwset txHeight db ≠ .error (.panic message) := by
  rcases @applyWriteSet_spec serializeMetadata rwset u db txHeight h.atMostOne with
    ⟨-, _, hok, -⟩ | ⟨-, _, _, houtcome, hnot⟩
  · rw [hok]
    simp
  · rw [h.isAllowed houtcome] at hnot
    cases hnot

/-! ## The block -/

theorem Safe.step_ne_panic {tx} (h : Safe C db u tx.rwset) (blockNum : Nat) (message : String) :
    step C serializeMetadata db blockNum true u tx ≠ .error (.panic message) := by
  refine bind_ne_panic (validateNsRwSets_ne_panic h.reads message) fun _ _ => ?_
  split
  · exact bind_ne_panic (h.applyWriteSet_ne_panic _ message) (by simp)
  · simp

theorem run_ne_panic {blockNum txs}
    (hsafe : ∀ before tx after codes u', txs = before ++ tx :: after →
      run C serializeMetadata db blockNum true u before = .ok (codes, u') → Safe C db u' tx.rwset)
    (message : String) :
    run C serializeMetadata db blockNum true u txs ≠ .error (.panic message) := by
  induction txs generalizing u with
  | nil => simp [run]
  | cons tx txs ih =>
    refine bind_ne_panic ((hsafe [] tx txs [] u rfl rfl).step_ne_panic blockNum message)
      fun stepped hstep => ?_
    obtain ⟨code, _⟩ := stepped
    refine bind_ne_panic (ih fun before tx' after codes u' htxs hrun => ?_) (by simp)
    refine hsafe (tx :: before) tx' after (code :: codes) u' (by rw [htxs]; rfl) ?_
    rw [run, hstep]
    simp [bind, Except.bind, hrun]

/-- A block is validated without a panic if each of its transactions is safe after the updates of
those before it. -/
theorem validateAndPrepareBatch_ne_panic (C : Codec) (serializeMetadata : SerializeMetadata)
    (db : DB) (block : Block)
    (hsafe : ∀ before tx after codes u, block.txs = before ++ tx :: after →
      validateAndPrepareBatch C serializeMetadata db ⟨block.num, before⟩ true = .ok (codes, u) →
      Safe C db u tx.rwset) (message : String) :
    validateAndPrepareBatch C serializeMetadata db block true ≠ .error (.panic message) :=
  run_ne_panic hsafe message

theorem validateAndPrepareBatch_ne_panic_writeAndQuery : ¬ ∃ message,
    validateAndPrepareBatch keysCodec (fun _ => .ok []) DB.empty (.ofNamespace [
      { writes := [⟨[1], false, some [7]⟩] },
      { rangeQueriesInfo := [⟨[], [], true, some (.rawReads [⟨[1], some ⟨1, 0⟩⟩])⟩],
        writes := [⟨[1], true, none⟩, ⟨[2], false, some [8]⟩] }]) true =
      .error (.panic message) := by
  rintro ⟨message, hpanic⟩
  refine validateAndPrepareBatch_ne_panic _ _ _ _ (fun before tx after _ u htxs _ => ?_)
    message hpanic
  have hmem : tx ∈ before ++ tx :: after := by simp
  rw [← htxs] at hmem
  simp only [Block.ofNamespace, mapIdx_cons, mapIdx_nil, mem_cons, not_mem_nil, or_false] at hmem
  rcases hmem with rfl | rfl <;>
    exact ⟨by simp [SafeReads], by decide, by simp [operations, nsOperations],
      by simp [operations, nsOperations]⟩

def isPanic {α : Type} : Outcome α → Bool
  | .error (.panic _) => true
  | _ => false

/-- Blocks that crash the validator: a write without a value, a raw read without a version, a
summary of degree zero, metadata for a key that was deleted in the block, two writes of such a key,
which the code takes for its metadata, and nine results for a summary of six. -/
theorem validateAndPrepareBatch_panics : [Block.ofNamespace [{ writes := [⟨[1], false, none⟩] }],
      .ofNamespace [{ writes := [⟨[1], false, some [7]⟩] },
        { rangeQueriesInfo := [⟨[], [], true, some (.rawReads [⟨[1], none⟩])⟩] }],
      .ofNamespace [{ rangeQueriesInfo := [⟨[], [], true, some (.readsMerkleHashes ⟨0, 0, []⟩)⟩] }],
      .ofNamespace [{ writes := [⟨[1], true, none⟩] },
        { metadataWrites := [⟨[1], some [⟨[2], some [3]⟩]⟩] }],
      .ofNamespace [{ writes := [⟨[1], true, none⟩] },
        { writes := [⟨[1], false, some [7]⟩, ⟨[1], false, some [7]⟩] }],
      .ofNamespace [{ writes := (range 9).map fun i => ⟨[i.toUInt8], false, some []⟩ },
        { rangeQueriesInfo := [⟨[], [], true,
          some (.readsMerkleHashes ⟨2, 1, [[0, 1, 2], [3, 4, 5]]⟩)⟩] }]].all (fun block =>
      isPanic (validateAndPrepareBatch keysCodec (fun _ => .ok [])
        DB.empty block true)) = true := by
  decide +kernel

end Validator

end Loki.Fabric
