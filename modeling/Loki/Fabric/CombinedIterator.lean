import Loki.Fabric.StateDB

/-!
# Ranges of the state under the updates of a block

`statebasedval/combined_iterator.go`: an iterator over the database and one over the updates are
merged, an update hides the committed value of its key, and deletions are passed over.
-/

namespace Loki.Fabric

open Loki.Foundation List Option VersionedValue Std.ReflOrd

/-- The items of an iterator are those it has yet to give, the one already fetched first. -/
structure CombinedIterator where
  ns : Bytes
  db : DB
  updates : UpdateBatch
  endKey : Bytes
  includeEndKey : Bool
  dbItems : List VersionedKV
  updatesItems : List VersionedKV
  endKeyServed : Bool := false

namespace CombinedIterator

variable (db : DB) (updates : UpdateBatch) (ns startKey endKey : Bytes) (itr : CombinedIterator)

def new (includeEndKey : Bool) : CombinedIterator where
  ns := ns
  db := db
  updates := updates
  endKey := endKey
  includeEndKey := includeEndKey
  dbItems := db.getStateRangeScanIterator ns startKey endKey
  updatesItems := updates.getRangeScanIterator ns startKey endKey

def serveEndKeyIfNeeded : Option VersionedKV × CombinedIterator :=
  if !itr.includeEndKey || itr.endKeyServed then (none, itr)
  else
    let vv := match itr.updates.get itr.ns itr.endKey with
      | some vv => some vv
      | none => itr.db.getState itr.ns itr.endKey
    let itr := { itr with endKeyServed := true }
    match vv with
    | none => (none, itr)
    | some vv =>
      let vkv : VersionedKV := (itr.endKey, { vv with metadata := none })
      if vkv.2.isDelete then (none, itr) else (some vkv, itr)

/-- The smaller item by `compareKeys`, for which nil is the largest, and what is left. -/
def select : Option (VersionedKV × CombinedIterator) :=
  match itr.dbItems, itr.updatesItems with
  | [], [] => none
  | dbItem :: dbItems, [] => some (dbItem, { itr with dbItems := dbItems })
  | [], updatesItem :: updatesItems => some (updatesItem, { itr with updatesItems := updatesItems })
  | dbItem :: dbItems, updatesItem :: updatesItems =>
    match compare dbItem.1 updatesItem.1 with
    | .lt => some (dbItem, { itr with dbItems := dbItems })
    | .eq => some (updatesItem, { itr with dbItems := dbItems, updatesItems := updatesItems })
    | .gt => some (updatesItem, { itr with updatesItems := updatesItems })

/-- `Next`, which calls itself after a deletion; there is one call at most for each item. -/
def next : Nat → CombinedIterator → Option VersionedKV × CombinedIterator
  | 0, itr => (none, itr)
  | fuel + 1, itr =>
    match itr.select with
    | none => itr.serveEndKeyIfNeeded
    | some (selectedItem, itr) =>
      if selectedItem.2.isDelete then next fuel itr else (some selectedItem, itr)

def size : Nat := itr.dbItems.length + itr.updatesItems.length

def results : Nat → CombinedIterator → List VersionedKV
  | 0, _ => []
  | fuel + 1, itr =>
    match itr.next (itr.size + 1) with
    | (none, _) => []
    | (some item, itr) => item :: results fuel itr

def toList : List VersionedKV := itr.results (itr.size + 2)

/-! ## One item -/

def Shown (dbItems updatesItems : List VersionedKV) (entry : VersionedKV) : Prop :=
  entry ∈ updatesItems ∨ entry ∈ dbItems ∧ ∀ vv, (entry.1, vv) ∉ updatesItems

section Shown

variable {dbItems updatesItems : List VersionedKV} {dbItem updatesItem entry : VersionedKV}

theorem lt_of_shown {key} (hdb : ∀ item ∈ dbItems, compare key item.1 = .lt)
    (hupdates : ∀ item ∈ updatesItems, compare key item.1 = .lt)
    (h : Shown dbItems updatesItems entry) : compare key entry.1 = .lt :=
  h.elim (hupdates entry) fun h => hdb entry h.1

theorem not_mem_of_lt {key} (hlt : ∀ item ∈ updatesItems, compare key item.1 = .lt)
    (vv : VersionedValue) : (key, vv) ∉ updatesItems := by
  intro hmem
  have hself := hlt _ hmem
  rw [compare_self] at hself
  cases hself

theorem shown_db (hlt : ∀ item ∈ updatesItems, compare dbItem.1 item.1 = .lt) :
    Shown (dbItem :: dbItems) updatesItems entry ↔
      entry = dbItem ∨ Shown dbItems updatesItems entry := by
  unfold Shown
  rw [mem_cons]
  constructor
  · rintro (hmem | ⟨rfl | hmem, hnot⟩)
    · exact .inr (.inl hmem)
    · exact .inl rfl
    · exact .inr (.inr ⟨hmem, hnot⟩)
  · rintro (rfl | hmem | ⟨hmem, hnot⟩)
    · exact .inr ⟨.inl rfl, not_mem_of_lt hlt⟩
    · exact .inl hmem
    · exact .inr ⟨.inr hmem, hnot⟩

theorem shown_updates (hlt : ∀ item ∈ dbItems, compare updatesItem.1 item.1 = .lt) :
    Shown dbItems (updatesItem :: updatesItems) entry ↔
      entry = updatesItem ∨ Shown dbItems updatesItems entry := by
  have hne (hmem : entry ∈ dbItems) vv : (entry.1, vv) ≠ updatesItem := by
    rintro rfl
    have hself := hlt _ hmem
    rw [compare_self] at hself
    cases hself
  unfold Shown
  simp only [mem_cons, not_or]
  constructor
  · rintro ((rfl | hmem) | ⟨hmem, hnot⟩)
    · exact .inl rfl
    · exact .inr (.inl hmem)
    · exact .inr (.inr ⟨hmem, fun vv => (hnot vv).2⟩)
  · rintro (rfl | hmem | ⟨hmem, hnot⟩)
    · exact .inl (.inl rfl)
    · exact .inl (.inr hmem)
    · exact .inr ⟨hmem, fun vv => ⟨hne hmem vv, hnot vv⟩⟩

theorem shown_hidden (heq : dbItem.1 = updatesItem.1) :
    Shown (dbItem :: dbItems) (updatesItem :: updatesItems) entry ↔
      Shown dbItems (updatesItem :: updatesItems) entry := by
  unfold Shown
  rw [mem_cons (b := dbItem)]
  constructor
  · rintro (hmem | ⟨rfl | hmem, hnot⟩)
    · exact .inl hmem
    · exact absurd (mem_cons_self ..) (heq ▸ hnot updatesItem.2)
    · exact .inr ⟨hmem, hnot⟩
  · rintro (hmem | ⟨hmem, hnot⟩)
    · exact .inl hmem
    · exact .inr ⟨.inr hmem, hnot⟩

end Shown

structure Sorted (itr : CombinedIterator) : Prop where
  db : Ascending itr.dbItems
  updates : Ascending itr.updatesItems

structure Selects (itr : CombinedIterator) (item : VersionedKV) (itr' : CombinedIterator) :
    Prop where
  eq : itr' = { itr with dbItems := itr'.dbItems, updatesItems := itr'.updatesItems }
  sorted : itr'.Sorted
  size_lt : itr'.size < itr.size
  shown_iff : ∀ entry, Shown itr.dbItems itr.updatesItems entry ↔
    entry = item ∨ Shown itr'.dbItems itr'.updatesItems entry
  lt_of_shown : ∀ entry, Shown itr'.dbItems itr'.updatesItems entry → compare item.1 entry.1 = .lt

variable {item : VersionedKV} {itr itr' : CombinedIterator}

theorem forall_lt_cons {key items} (h : Ascending (item :: items))
    (hlt : compare key item.1 = .lt) : ∀ other ∈ item :: items, compare key other.1 = .lt := by
  rw [Ascending, pairwise_cons] at h
  rw [forall_mem_cons]
  exact ⟨hlt, fun other hother => Std.TransCmp.lt_trans hlt (h.1 other hother)⟩

theorem selects_of_select (hsorted : itr.Sorted) (h : itr.select = some (item, itr')) :
    itr.Selects item itr' := by
  obtain ⟨_, _, _, _, _, dbItems, updatesItems, _⟩ := itr
  obtain ⟨hdb, hupdates⟩ := hsorted
  have nothing key : ∀ other ∈ ([] : List VersionedKV), compare key other.1 = .lt := by simp
  match dbItems, updatesItems with
  | [], [] => simp [select] at h
  | dbItem :: dbItems, [] =>
    obtain ⟨rfl, rfl⟩ := Prod.mk.inj (some.inj h)
    obtain ⟨hlt, hdb⟩ := pairwise_cons.mp hdb
    exact ⟨rfl, ⟨hdb, hupdates⟩, by simp [size], fun _ => shown_db (nothing _),
      fun _ => lt_of_shown hlt (nothing _)⟩
  | [], updatesItem :: updatesItems =>
    obtain ⟨rfl, rfl⟩ := Prod.mk.inj (some.inj h)
    obtain ⟨hlt, hupdates⟩ := pairwise_cons.mp hupdates
    exact ⟨rfl, ⟨hdb, hupdates⟩, by simp [size], fun _ => shown_updates (nothing _),
      fun _ => lt_of_shown (nothing _) hlt⟩
  | dbItem :: dbItems, updatesItem :: updatesItems =>
    simp only [select] at h
    cases hcompare : compare dbItem.1 updatesItem.1 with
    | lt =>
      rw [hcompare] at h
      obtain ⟨rfl, rfl⟩ := Prod.mk.inj (some.inj h)
      obtain ⟨hlt, hdb⟩ := pairwise_cons.mp hdb
      have hall := forall_lt_cons hupdates hcompare
      exact ⟨rfl, ⟨hdb, hupdates⟩, by simp [size], fun _ => shown_db hall,
        fun _ => lt_of_shown hlt hall⟩
    | eq =>
      rw [hcompare] at h
      obtain ⟨rfl, rfl⟩ := Prod.mk.inj (some.inj h)
      have heq : dbItem.1 = updatesItem.1 := Std.LawfulEqOrd.eq_of_compare hcompare
      obtain ⟨hlt, hdb⟩ := pairwise_cons.mp hdb
      obtain ⟨hlt', hupdates⟩ := pairwise_cons.mp hupdates
      rw [heq] at hlt
      exact ⟨rfl, ⟨hdb, hupdates⟩, by simp only [size, length_cons]; omega,
        fun _ => (shown_hidden heq).trans (shown_updates hlt), fun _ => lt_of_shown hlt hlt'⟩
    | gt =>
      rw [hcompare] at h
      obtain ⟨rfl, rfl⟩ := Prod.mk.inj (some.inj h)
      obtain ⟨hlt, hupdates⟩ := pairwise_cons.mp hupdates
      have hall := forall_lt_cons hdb (Std.OrientedCmp.lt_of_gt hcompare)
      exact ⟨rfl, ⟨hdb, hupdates⟩, by simp [size], fun _ => shown_updates hall,
        fun _ => lt_of_shown hall hlt⟩

theorem select_eq_none_iff (itr : CombinedIterator) :
    itr.select = none ↔ itr.dbItems = [] ∧ itr.updatesItems = [] := by
  unfold select
  split
  next hdb hupdates => simp [hdb, hupdates]
  next hdb hupdates => simp [hdb]
  next hdb hupdates => simp [hupdates]
  next hdb hupdates => split <;> simp [hdb]

/-! ## All items -/

theorem next_succ (fuel : Nat) (itr : CombinedIterator) :
    itr.next (fuel + 1) =
      match itr.select with
      | none => itr.serveEndKeyIfNeeded
      | some (selectedItem, itr) =>
        if selectedItem.2.isDelete then next fuel itr else (some selectedItem, itr) := rfl

theorem next_eq_next (hsorted : itr.Sorted) {fuel fuel'} (hfuel : itr.size < fuel)
    (hfuel' : itr.size < fuel') : itr.next fuel = itr.next fuel' := by
  induction fuel generalizing itr fuel' with
  | zero => omega
  | succ _ ih =>
    obtain ⟨fuel', rfl⟩ := Nat.exists_eq_add_one_of_ne_zero (Nat.ne_zero_of_lt hfuel')
    rw [next_succ, next_succ]
    cases hselect : itr.select with
    | none => rfl
    | some selected =>
      obtain ⟨_, itr'⟩ := selected
      have hselects := selects_of_select hsorted hselect
      have hlt := hselects.size_lt
      dsimp only
      rw [ih hselects.sorted (by omega) (show itr'.size < fuel' by omega)]

def endKeyItems (itr : CombinedIterator) : List VersionedKV := itr.serveEndKeyIfNeeded.1.toList

def latest (ns key : Bytes) : Option VersionedValue :=
  match updates.get ns key with
  | some vv => some vv
  | none => db.getState ns key

def live (ns key : Bytes) : Option VersionedValue :=
  (latest db updates ns key).filter fun vv => !vv.isDelete

theorem live_eq_some_iff {db updates ns key vv} :
    live db updates ns key = some vv ↔
      latest db updates ns key = some vv ∧ vv.isDelete = false := by
  rw [live, filter_eq_some_iff, Bool.not_eq_true']

theorem endKeyItems_eq (itr : CombinedIterator) : itr.endKeyItems =
    if !itr.includeEndKey || itr.endKeyServed then []
    else (live itr.db itr.updates itr.ns itr.endKey).toList.map
      fun vv => (itr.endKey, { vv with metadata := none }) := by
  unfold endKeyItems serveEndKeyIfNeeded live
  split
  · rfl
  · dsimp only
    change ((match latest itr.db itr.updates itr.ns itr.endKey with
      | none => (none, { itr with endKeyServed := true })
      | some vv => _) : Option VersionedKV × CombinedIterator).1.toList = _
    cases latest itr.db itr.updates itr.ns itr.endKey with
    | none => rfl
    | some vv =>
      cases hvalue : vv.value with
      | none | some value => simp [isDelete, hvalue, Option.filter]

theorem serveEndKeyIfNeeded_again (itr : CombinedIterator) :
    itr.serveEndKeyIfNeeded.2.serveEndKeyIfNeeded = (none, itr.serveEndKeyIfNeeded.2) ∧
      itr.serveEndKeyIfNeeded.2.dbItems = itr.dbItems ∧
      itr.serveEndKeyIfNeeded.2.updatesItems = itr.updatesItems := by
  have hleft : itr.serveEndKeyIfNeeded.2 =
      if !itr.includeEndKey || itr.endKeyServed then itr
      else { itr with endKeyServed := true } := by
    unfold serveEndKeyIfNeeded
    split
    · rfl
    · dsimp only
      repeat' split
      all_goals rfl
  rw [hleft]
  split
  · next h => exact ⟨if_pos h, rfl, rfl⟩
  · exact ⟨by simp [serveEndKeyIfNeeded], rfl, rfl⟩

theorem next_serveEndKeyIfNeeded (h : itr.select = none) :
    itr.serveEndKeyIfNeeded.2.next (itr.serveEndKeyIfNeeded.2.size + 1) =
      (none, itr.serveEndKeyIfNeeded.2) := by
  obtain ⟨hagain, hdb, hupdates⟩ := itr.serveEndKeyIfNeeded_again
  have hselect : itr.serveEndKeyIfNeeded.2.select = none := by
    rw [select_eq_none_iff, hdb, hupdates]
    exact (select_eq_none_iff itr).mp h
  rw [next_succ, hselect, hagain]

theorem results_of_select_none (h : itr.select = none) (fuel : Nat) :
    itr.results (fuel + 2) = itr.endKeyItems := by
  have hnext : itr.next (itr.size + 1) = itr.serveEndKeyIfNeeded := by rw [next_succ, h]
  have hdone := next_serveEndKeyIfNeeded h
  rw [results, hnext, endKeyItems]
  cases hserve : itr.serveEndKeyIfNeeded with
  | mk served itr' =>
    rw [hserve] at hdone
    cases served with
    | none => rfl
    | some =>
      dsimp only at hdone ⊢
      rw [results, hdone]
      rfl

theorem results_eq (hsorted : itr.Sorted) {fuel} (hfuel : itr.size + 1 < fuel) :
    ∃ scan, itr.results fuel = scan ++ itr.endKeyItems ∧ Ascending scan ∧
      ∀ entry, entry ∈ scan ↔ Shown itr.dbItems itr.updatesItems entry ∧
        entry.2.isDelete = false := by
  induction hsize : itr.size using Nat.strong_induction_on generalizing itr fuel with
  | _ _ ih =>
    obtain ⟨fuel, rfl⟩ : ∃ n, fuel = n + 2 := ⟨fuel - 2, by omega⟩
    cases hselect : itr.select with
    | none =>
      obtain ⟨hdb, hupdates⟩ := (select_eq_none_iff itr).mp hselect
      refine ⟨[], results_of_select_none hselect fuel, .nil, fun entry => ?_⟩
      simp [Shown, hdb, hupdates]
    | some selected =>
      obtain ⟨item, itr'⟩ := selected
      have hselects := selects_of_select hsorted hselect
      have hlt := hselects.size_lt
      have hend : itr'.endKeyItems = itr.endKeyItems := by
        calc itr'.endKeyItems = endKeyItems { itr with
              dbItems := itr'.dbItems, updatesItems := itr'.updatesItems } :=
            congrArg endKeyItems hselects.eq
          _ = itr.endKeyItems := by rw [endKeyItems_eq, endKeyItems_eq]
      have hnext := next_succ itr.size itr
      rw [hselect] at hnext
      dsimp only at hnext
      cases hdelete : item.2.isDelete with
      | true =>
        obtain ⟨scan, hresults, hscan, hmem⟩ :=
          ih itr'.size (by omega) hselects.sorted (show itr'.size + 1 < fuel + 2 by omega) rfl
        rw [if_pos hdelete, next_eq_next hselects.sorted hlt (Nat.lt_succ_self _)] at hnext
        refine ⟨scan, ?_, hscan, fun entry => ?_⟩
        · rw [results, hnext, ← hend]
          exact hresults
        · rw [hmem, hselects.shown_iff]
          constructor
          · exact fun h => ⟨.inr h.1, h.2⟩
          · rintro ⟨rfl | h, hnot⟩
            · rw [hdelete] at hnot
              cases hnot
            · exact ⟨h, hnot⟩
      | false =>
        obtain ⟨scan, hresults, hscan, hmem⟩ :=
          ih itr'.size (by omega) hselects.sorted (show itr'.size + 1 < fuel + 1 by omega) rfl
        rw [if_neg (by rw [hdelete]; exact Bool.false_ne_true)] at hnext
        refine ⟨item :: scan, ?_, pairwise_cons.mpr ⟨?_, hscan⟩, fun entry => ?_⟩
        · rw [results, hnext, ← hend]
          exact congrArg (item :: ·) hresults
        · exact fun entry hentry => hselects.lt_of_shown entry ((hmem entry).mp hentry).1
        · rw [mem_cons, hmem, hselects.shown_iff]
          constructor
          · rintro (rfl | h)
            · exact ⟨.inl rfl, hdelete⟩
            · exact ⟨.inr h.1, h.2⟩
          · rintro ⟨rfl | h, hnot⟩
            · exact .inl rfl
            · exact .inr ⟨h, hnot⟩

/-- What call `n` of `Next` returns. -/
def call : Nat → CombinedIterator → Option VersionedKV
  | 0, itr => (itr.next (itr.size + 1)).1
  | n + 1, itr => call n (itr.next (itr.size + 1)).2

theorem next_spec (hsorted : itr.Sorted) {fuel} (hfuel : itr.size < fuel) :
    (itr.next fuel).2.Sorted ∧ ((itr.next fuel).1 = none →
      (itr.next fuel).2.next ((itr.next fuel).2.size + 1) = (none, (itr.next fuel).2)) := by
  induction fuel generalizing itr with
  | zero => omega
  | succ fuel ih =>
    have hnext := next_succ fuel itr
    rw [hnext]
    cases hselect : itr.select with
    | none =>
      obtain ⟨-, hdb, hupdates⟩ := itr.serveEndKeyIfNeeded_again
      exact ⟨⟨hdb ▸ hsorted.db, hupdates ▸ hsorted.updates⟩,
        fun _ => next_serveEndKeyIfNeeded hselect⟩
    | some =>
      have hselects := selects_of_select hsorted hselect
      have hlt := hselects.size_lt
      dsimp only
      split
      · exact ih hselects.sorted (by omega)
      · exact ⟨hselects.sorted, nofun⟩

theorem call_eq_none (h : itr.next (itr.size + 1) = (none, itr)) (n : Nat) : itr.call n = none := by
  induction n with
  | zero => rw [call, h]
  | succ _ ih => rwa [call, h]

theorem getElem?_results (hsorted : itr.Sorted) {fuel n} (hn : n < fuel) :
    (itr.results fuel)[n]? = itr.call n := by
  induction fuel generalizing itr n with
  | zero => omega
  | succ _ ih =>
    obtain ⟨hsorted', hdone⟩ := next_spec hsorted (Nat.lt_succ_self _)
    unfold results
    cases n with
    | zero => rw [call]; split <;> simp [*]
    | succ n =>
      rw [call]
      split
      · next hnext =>
        rw [hnext] at hdone ⊢
        rw [call_eq_none (hdone rfl), getElem?_nil]
      · next hnext =>
        rw [hnext] at hsorted' ⊢
        exact ih hsorted' (by omega)

theorem call_eq_getElem? (hsorted : itr.Sorted) (n : Nat) : itr.call n = itr.toList[n]? := by
  obtain ⟨scan, hresults, hscan, hmem⟩ :=
    results_eq hsorted (show itr.size + 1 < itr.size + 2 + n by omega)
  obtain ⟨scan', hresults', hscan', hmem'⟩ := results_eq hsorted (Nat.lt_succ_self _)
  rw [← getElem?_results hsorted (show n < itr.size + 2 + n by omega), toList, hresults, hresults',
    hscan.eq_of_mem_iff hscan' fun entry => by rw [hmem, hmem']]

theorem shown_new_iff (entry : VersionedKV) :
    Shown (db.getStateRangeScanIterator ns startKey endKey)
        (updates.getRangeScanIterator ns startKey endKey) entry ↔
      inRange startKey endKey entry.1 = true ∧ latest db updates ns entry.1 = some entry.2 := by
  have hdb := (db.isScan_getStateRangeScanIterator ns startKey endKey).mem_iff
  have hupdates := (updates.isScan_getRangeScanIterator ns startKey endKey).mem_iff
  obtain ⟨key, _⟩ := entry
  unfold Shown latest
  simp only [hdb, hupdates]
  cases updates.get ns key with
  | none => simp
  | some => simp +contextual

variable (includeEndKey : Bool)

theorem sorted_new : (new db updates ns startKey endKey includeEndKey).Sorted :=
  ⟨(db.isScan_getStateRangeScanIterator ns startKey endKey).ascending,
    (updates.isScan_getRangeScanIterator ns startKey endKey).ascending⟩

theorem toList_new : ∃ scan,
      IsScan (live db updates ns) (inRange startKey endKey · = true) scan ∧
      (new db updates ns startKey endKey includeEndKey).toList = scan ++
        if includeEndKey then (live db updates ns endKey).toList.map
          fun vv => (endKey, { vv with metadata := none }) else [] := by
  obtain ⟨scan, hresults, hscan, hmem⟩ := results_eq (sorted_new db updates ns startKey endKey
    includeEndKey) (Nat.lt_succ_self _)
  refine ⟨scan, ⟨hscan, fun _ _ => ?_⟩, ?_⟩
  · rw [hmem, live_eq_some_iff, ← and_assoc]
    exact and_congr_left fun _ => shown_new_iff ..
  · rw [toList, hresults, endKeyItems_eq]
    cases includeEndKey <;> rfl

/-- The calls of `Next` give the entries of the range as they are under the updates. -/
theorem next_merges (hend : endKey ≠ []) :
    ∃ entries, IsScan (fun key => (live db updates ns key).map (·.version))
        (fun key => compare key startKey ≠ .lt ∧ compare key endKey = .lt ∨
          includeEndKey = true ∧ key = endKey) entries ∧
      ∀ n, ((new db updates ns startKey endKey includeEndKey).call n).map
        (fun item => (item.1, item.2.version)) = entries[n]? := by
  have hsorted := sorted_new db updates ns startKey endKey includeEndKey
  obtain ⟨scan, hscan, hlist⟩ := toList_new db updates ns startKey endKey includeEndKey
  have hrange key : inRange startKey endKey key = true ↔
      compare key startKey ≠ .lt ∧ compare key endKey = .lt := by simp [inRange, hend]
  refine ⟨(new db updates ns startKey endKey includeEndKey).toList.map fun item =>
    (item.1, item.2.version), ⟨?_, ?_⟩, fun n => ?_⟩
  · rw [hlist, Ascending, pairwise_map, pairwise_append]
    refine ⟨hscan.ascending, by cases includeEndKey <;> cases live .. <;> simp, ?_⟩
    intro item hitem last hlast
    have hkey : last.1 = endKey := by
      split at hlast
      · obtain ⟨_, -, rfl⟩ := mem_map.mp hlast
        rfl
      · cases hlast
    rw [hkey]
    exact ((hrange _).mp ((hscan.mem_iff ..).mp hitem).1).2
  · intro key version
    rw [hlist, map_append, mem_append, or_and_right]
    apply or_congr
    · simp [hscan.mem_iff, hrange, and_assoc]
    · cases includeEndKey with
      | false => simp
      | true =>
        by_cases hkey : key = endKey
        · simp [hkey]
        · simp [hkey, Ne.symm hkey]
  · rw [getElem?_map, call_eq_getElem? hsorted]

/-- Keys 1 and 2 are committed. -/
def twoKeys : DB :=
  { DB.empty with
    state := fun _ => ((∅ : Std.ExtTreeMap Bytes VersionedValue).insert [1]
      ⟨some [7], none, ⟨1, 0⟩⟩).insert [2] ⟨some [8], none, ⟨1, 1⟩⟩
    metadataEverUsedFor := fun _ => true
    value_isSome := by
      intro _ _ _ hget
      simp only [Std.ExtTreeMap.getElem?_insert, Std.ExtTreeMap.getElem?_empty] at hget
      split_ifs at hget <;> cases hget <;> rfl
    metadata_hint := fun _ _ => rfl
    hashedMetadata_hint := fun _ _ => rfl }

/-- One of them is deleted, and the end of the range is written. -/
def endKeyUpdates : UpdateBatch :=
  (({} : UpdateBatch).update [0] [2] ⟨none, none, ⟨2, 2⟩⟩).update [0] [3] ⟨some [9], none, ⟨2, 3⟩⟩

theorem next_merges_endKeyUpdates :
    ∃ entries : List (Bytes × Height), ([1], ⟨1, 0⟩) ∈ entries ∧
      (∀ version, ([2], version) ∉ entries) ∧ ([3], ⟨2, 3⟩) ∈ entries ∧
      ∀ n, ((new twoKeys endKeyUpdates [0] [] [3] true).call n).map
        (fun item => (item.1, item.2.version)) = entries[n]? := by
  obtain ⟨entries, hscan, hcall⟩ := next_merges twoKeys endKeyUpdates [0] [] [3] true (by decide)
  refine ⟨entries, (hscan.mem_iff ..).mpr ⟨.inl ⟨by decide, by decide⟩, by decide⟩,
    fun version hmem => ?_, (hscan.mem_iff ..).mpr ⟨.inr ⟨rfl, rfl⟩, by decide⟩, hcall⟩
  have hlive := ((hscan.mem_iff ..).mp hmem).2
  have hnone : live twoKeys endKeyUpdates [0] [2] = none := by decide
  rw [hnone] at hlive
  cases hlive

end CombinedIterator

end Loki.Fabric
