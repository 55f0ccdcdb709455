import Loki.Fisco.Moves

/-!
# What a new view is made from

The leader of a view keeps the greatest committed and the greatest prepared index of the view
changes it has cached, in maps that are cleared and filled apart from the view changes themselves.
A new view covers the prepared proposals as long as the two go together.
-/

namespace Loki.Fisco

open List OrderedMap Set PBFTMessage
open Option (getD_some some)

def Summarises (summary : Option Nat) (S : Set Nat) : Prop :=
  (summary = none ∧ S = ∅) ∨ ∃ m, summary = some m ∧ IsGreatest S m

namespace Summarises

variable {summary : Option Nat} {S : Set Nat}

theorem empty : Summarises none ∅ := .inl ⟨rfl, rfl⟩

theorem insert (h : Summarises summary S) (a : Nat) :
    Summarises (some (summary.elim a (max · a))) (insert a S) := by
  rcases h with ⟨rfl, rfl⟩ | ⟨m, rfl, hm⟩
  · exact .inr ⟨a, rfl, by simp⟩
  · refine .inr ⟨max m a, rfl, ?_⟩
    rw [max_comm]
    exact hm.insert a

theorem isGreatest {m : Nat} (h : Summarises (some m) S) : IsGreatest S m := by
  rcases h with ⟨hnone, -⟩ | ⟨_, heq, _⟩
  · cases hnone
  · rwa [some.inj heq]

theorem eq_some (h : Summarises summary S) {m : Nat} (hm : IsGreatest S m) : summary = some m := by
  rcases h with ⟨-, rfl⟩ | ⟨_, heq, hm'⟩
  · exact absurd hm.1 (notMem_empty m)
  · rw [heq, hm'.unique hm]

end Summarises

def PBFTMessage.Consistent (precommit : PBFTMessage) : Prop :=
  ∃ proposal ∈ precommit.consensusProposal,
    proposal.index = precommit.index ∧ proposal.hash = precommit.hash

instance (precommit : PBFTMessage) : Decidable precommit.Consistent :=
  inferInstanceAs (Decidable (∃ proposal ∈ _, _))

namespace PBFTEngine

variable {s : PBFTEngine} {change viewChange : ViewChangeMsg}
  {view low latestCommitted : Nat} {indices : OrderedMap Nat Nat} {P : Set PBFTMessage}
  {cached cached' : Nat → ViewChangeMsg → Prop} {f : ViewChangeMsg → List Nat}

section

variable (s : PBFTEngine) (view : Nat)

def IsCached (change : ViewChangeMsg) : Prop :=
  ∃ sender : Nat, (s.viewChangeCache[view]?.getD ∅)[sender]? = some change

def IsPrepared (precommit : PBFTMessage) : Prop :=
  ∃ change, s.IsCached view change ∧ precommit ∈ change.preparedProposals

def committedIndices : Set Nat :=
  {i | ∃ change, s.IsCached view change ∧ change.committedProposal.index = i}

def preparedIndices : Set Nat :=
  {i | ∃ precommit, s.IsPrepared view precommit ∧ precommit.index = i}

end

/-- The map has the greatest of the indices `f` that the cached view changes of a view name. -/
def KeepsGreatest (cached : Nat → ViewChangeMsg → Prop) (f : ViewChangeMsg → List Nat)
    (indices : OrderedMap Nat Nat) : Prop :=
  ∀ view, (∃ change, cached view change) →
    Summarises indices[view]? {i | ∃ change, cached view change ∧ i ∈ f change}

/-- What a view change raises the greatest prepared index to, the entry of the log line last. -/
def raisedIndices (change : ViewChangeMsg) : List Nat :=
  change.preparedProposals.map (·.index) ++ [0]

structure Agrees (s : PBFTEngine) : Prop where
  committed : KeepsGreatest s.IsCached (fun change => [change.committedProposal.index])
    s.maxCommittedIndex
  prepared : KeepsGreatest s.IsCached raisedIndices s.maxPrecommitIndex
  consistent : ∀ view change, s.IsCached view change →
    ∀ precommit ∈ change.preparedProposals, precommit.Consistent

theorem foldl_raiseIndex_of_ne (added : List Nat) (indices : OrderedMap Nat Nat) {other : Nat}
    (hother : view ≠ other) :
    (added.foldl (raiseIndex view) indices)[other]? = indices[other]? := by
  induction added generalizing indices with
  | nil => rfl
  | cons _ _ ih =>
    rw [foldl_cons, ih]
    simp [raiseIndex, hother]

theorem summarises_foldl_raiseIndex (added : List Nat) {S : Set Nat}
    (h : Summarises indices[view]? S) :
    Summarises (added.foldl (raiseIndex view) indices)[view]? ({i | i ∈ added} ∪ S) := by
  induction added generalizing indices S with
  | nil => simpa using h
  | cons index added ih =>
    have hset : {i | i ∈ index :: added} ∪ S = {i | i ∈ added} ∪ insert index S := by
      ext i
      grind
    have hraised : Summarises (raiseIndex view indices index)[view]? (insert index S) := by
      simpa [raiseIndex] using h.insert index
    rw [hset]
    exact ih hraised

namespace KeepsGreatest

theorem add (h : KeepsGreatest cached f indices) (hcached : ∀ view change, cached' view change ↔
      cached view change ∨ view = viewChange.view ∧ change = viewChange)
    (hfirst : (∀ change, ¬ cached viewChange.view change) → indices[viewChange.view]? = none) :
    KeepsGreatest cached' f ((f viewChange).foldl (raiseIndex viewChange.view) indices) := by
  intro view hsome
  by_cases hview : viewChange.view = view
  · subst hview
    have hold : Summarises indices[viewChange.view]?
        {i | ∃ change, cached viewChange.view change ∧ i ∈ f change} := by
      by_cases hsome : ∃ change, cached viewChange.view change
      · exact h _ hsome
      · have hnone := not_exists.mp hsome
        rw [hfirst hnone]
        exact .inl ⟨rfl, by simp [hnone]⟩
    have hset : {i | ∃ change, cached' viewChange.view change ∧ i ∈ f change} =
        {i | i ∈ f viewChange} ∪ {i | ∃ change, cached viewChange.view change ∧ i ∈ f change} := by
      ext i
      simp only [hcached, mem_ofPred_eq, mem_union]
      grind
    rw [hset]
    exact summarises_foldl_raiseIndex _ hold
  · have hother : cached' view = cached view := by
      funext change
      simp [hcached, Ne.symm hview]
    rw [hother] at hsome ⊢
    rw [foldl_raiseIndex_of_ne _ _ hview]
    exact h view hsome

theorem restrict (h : KeepsGreatest cached f indices)
    (hkept : ∀ view, (∃ change, cached' view change) → cached' view = cached view) :
    KeepsGreatest cached' f indices := by
  intro view hsome
  have heq := hkept view hsome
  rw [heq] at hsome ⊢
  exact h view hsome

end KeepsGreatest

theorem addViewChangeReq_cases (s : PBFTEngine) (viewChange : ViewChangeMsg) :
    s.addViewChangeReq viewChange = s ∨
      (s.viewChangeCache[viewChange.view]?.getD ∅)[viewChange.generatedFrom]? = none ∧
      (s.addViewChangeReq viewChange).viewChangeCache = s.viewChangeCache.insert viewChange.view
        ((s.viewChangeCache[viewChange.view]?.getD ∅).insert viewChange.generatedFrom viewChange) ∧
      (s.addViewChangeReq viewChange).maxCommittedIndex = raiseIndex viewChange.view
        s.maxCommittedIndex viewChange.committedProposal.index ∧
      (s.addViewChangeReq viewChange).maxPrecommitIndex =
        (raisedIndices viewChange).foldl (raiseIndex viewChange.view) s.maxPrecommitIndex := by
  unfold addViewChangeReq
  dsimp only
  split
  · exact .inl rfl
  next hnew =>
    split
    · exact .inl rfl
    · refine .inr ⟨?_, rfl, rfl, ?_⟩
      · simpa using hnew
      · rw [raisedIndices, foldl_append, foldl_map]
        rfl

theorem isCached_insert {s' : PBFTEngine}
    (hnew : (s.viewChangeCache[viewChange.view]?.getD ∅)[viewChange.generatedFrom]? = none)
    (hcache : s'.viewChangeCache = s.viewChangeCache.insert viewChange.view
      ((s.viewChangeCache[viewChange.view]?.getD ∅).insert viewChange.generatedFrom viewChange)) :
    s'.IsCached view change ↔ s.IsCached view change ∨ view = viewChange.view ∧
      change = viewChange := by
  unfold IsCached
  rw [hcache]
  by_cases hview : viewChange.view = view
  · subst hview
    simp only [getElem?_insert, if_true, getD_some, true_and]
    constructor
    · rintro ⟨sender, hsender⟩
      split at hsender
      · exact .inr (some.inj hsender).symm
      · exact .inl ⟨sender, hsender⟩
    · rintro (⟨sender, hsender⟩ | rfl)
      · refine ⟨sender, ?_⟩
        rw [if_neg]
        · exact hsender
        · rintro rfl
          simp [hnew] at hsender
      · exact ⟨change.generatedFrom, if_pos rfl⟩
  · simp [hview, Ne.symm hview]

theorem isCached_removeInvalidViewChange (s : PBFTEngine) (low latestCommitted : Nat) :
    (s.removeInvalidViewChange low latestCommitted).IsCached view change ↔
      low < view ∧ latestCommitted ≤ change.index ∧ s.IsCached view change := by
  simp only [IsCached, removeInvalidViewChange, reCalculateViewChangeWeight,
    Std.ExtTreeMap.getElem?_map, OrderedMap.getElem?_filter]
  cases s.viewChangeCache[view]? with
  | none => simp
  | some changes =>
    by_cases hview : low < view
    · have hkept : (some changes).filter (fun _ => decide (low < view)) = some changes := by
        simp [hview]
      rw [hkept]
      simp only [Option.map_some, getD_some, OrderedMap.getElem?_filter,
        Option.filter_eq_some_iff, decide_eq_true_eq, hview, true_and]
      rw [exists_and_right, and_comm]
    · simp [hview]

namespace Agrees

theorem of_none (h : ∀ view change, ¬ s.IsCached view change) : s.Agrees where
  committed view hsome := absurd hsome (not_exists.mpr (h view))
  prepared view hsome := absurd hsome (not_exists.mpr (h view))
  consistent view change hchange := absurd hchange (h view change)

variable {s' : PBFTEngine}

theorem addViewChangeReq (h : s.Agrees)
    (hconsistent : ∀ precommit ∈ viewChange.preparedProposals, precommit.Consistent)
    (hfirst : (∀ change, ¬ s.IsCached viewChange.view change) →
      s.maxCommittedIndex[viewChange.view]? = none ∧
        s.maxPrecommitIndex[viewChange.view]? = none) : (s.addViewChangeReq viewChange).Agrees := by
  rcases addViewChangeReq_cases s viewChange with heq | ⟨hnew, hcache, hcommitted, hprecommit⟩
  · rw [heq]
    exact h
  have hcached view change :
      (s.addViewChangeReq viewChange).IsCached view change ↔
        s.IsCached view change ∨ view = viewChange.view ∧ change = viewChange :=
    isCached_insert hnew hcache
  constructor
  · rw [hcommitted]
    exact h.committed.add hcached fun hnone => (hfirst hnone).1
  · rw [hprecommit]
    exact h.prepared.add hcached fun hnone => (hfirst hnone).2
  · intro view change hchange
    rcases (hcached view change).mp hchange with hold | ⟨-, rfl⟩
    · exact h.consistent view change hold
    · exact hconsistent

theorem removeInvalidViewChange (h : s.Agrees)
    (hkept : ∀ view change, low < view → s.IsCached view change → latestCommitted ≤ change.index) :
    (s.removeInvalidViewChange low latestCommitted).Agrees := by
  have hcached view (hsome : ∃ change,
        (s.removeInvalidViewChange low latestCommitted).IsCached view change) :
      (s.removeInvalidViewChange low latestCommitted).IsCached view = s.IsCached view := by
    obtain ⟨_, hchange⟩ := hsome
    have hview := ((isCached_removeInvalidViewChange s low latestCommitted).mp hchange).1
    funext change
    rw [isCached_removeInvalidViewChange]
    exact propext ⟨fun hall => hall.2.2, fun hold => ⟨hview, hkept view change hview hold, hold⟩⟩
  refine ⟨h.committed.restrict hcached, h.prepared.restrict hcached, ?_⟩
  intro view change hchange
  rw [hcached view ⟨change, hchange⟩] at hchange
  exact h.consistent view change hchange

theorem of_cleared
    (hcache : s'.viewChangeCache = (s.removeInvalidViewChange low latestCommitted).viewChangeCache)
    (hdropped : ∀ view change, low < view → s.IsCached view change →
      change.index < latestCommitted) : s'.Agrees := by
  refine of_none fun view change hchange => ?_
  rw [IsCached, hcache] at hchange
  obtain ⟨hview, hindex, hold⟩ :=
    (isCached_removeInvalidViewChange s low latestCommitted).mp hchange
  exact absurd hindex (Nat.not_le.mpr (hdropped view change hview hold))

theorem summarises (h : s.Agrees) (hchange : s.IsCached view change) :
    Summarises s.maxCommittedIndex[view]? (s.committedIndices view) ∧
      Summarises s.maxPrecommitIndex[view]? (insert 0 (s.preparedIndices view)) := by
  constructor
  · simpa [committedIndices, eq_comm] using h.committed view ⟨change, hchange⟩
  · have hset : insert 0 (s.preparedIndices view) = {i | ∃ change, s.IsCached view change ∧
        i ∈ raisedIndices change} := by
      ext i
      simp only [preparedIndices, IsPrepared, raisedIndices, mem_insert_iff, mem_ofPred_eq,
        mem_append, mem_map]
      grind
    rw [hset]
    exact h.prepared view ⟨change, hchange⟩

end Agrees

/-! ### The prepared proposals of a new view -/

def Unbroken (P : Set PBFTMessage) : Prop :=
  ∀ p ∈ P, ∀ q ∈ P, ∀ r ∈ P, p.index = q.index → r.index = q.index → p.hash = q.hash →
    p.view < r.view → r.view < q.view → r.hash = p.hash

theorem Unbroken.subset {Q : Set PBFTMessage} (h : Unbroken Q) (hsub : ∀ p ∈ P, p ∈ Q) :
    Unbroken P := fun p hp q hq r hr => h p (hsub p hp) q (hsub q hq) r (hsub r hr)

def IsHighest (P : Set PBFTMessage) (index : Nat) (best : PBFTMessage) : Prop :=
  best ∈ P ∧ best.index = index ∧ ∀ q ∈ P, q.index = index → q.view ≤ best.view

/-- What the loop of `generatePrePrepareMsg` has found for an index after the precommits of a
set. -/
def CollectedAt (P : Set PBFTMessage) (i : Nat) : Option PBFTMessage → Prop
  | none => ∀ p ∈ P, p.index ≠ i
  | some acc => (∃ p ∈ P, p.index = i ∧ acc = { p with generatedFrom := acc.generatedFrom }) ∧
      ∃ best, IsHighest P i best ∧ best.hash = acc.hash

def Collected (maxCommitted : Nat) (P : Set PBFTMessage) (prepared : OrderedMap Nat PBFTMessage) :
    Prop :=
  ∀ i, maxCommitted ≤ i → CollectedAt P i prepared[i]?

theorem IsHighest.insert {index best p} (h : IsHighest P index best)
    (hp : p.index = index → p.view ≤ best.view) : IsHighest (insert p P) index best := by
  refine ⟨.inr h.1, h.2.1, fun q hq hindex => ?_⟩
  rcases hq with rfl | hq
  · exact hp hindex
  · exact h.2.2 q hq hindex

theorem isHighest_insert_self {p} (h : ∀ q ∈ P, q.index = p.index → q.view ≤ p.view) :
    IsHighest (insert p P) p.index p := by
  refine ⟨.inl rfl, rfl, fun q hq hindex => ?_⟩
  rcases hq with rfl | hq
  · exact le_rfl
  · exact h q hq hindex

theorem CollectedAt.insert_of_ne {i p x} (h : CollectedAt P i x) (hne : p.index ≠ i) :
    CollectedAt (insert p P) i x := by
  cases x with
  | none =>
    rintro q (rfl | hq)
    · exact hne
    · exact h q hq
  | some =>
    obtain ⟨⟨q, hq, hcopy⟩, best, hbest, hhash⟩ := h
    exact ⟨⟨q, .inr hq, hcopy⟩, best, hbest.insert fun hi => absurd hi hne, hhash⟩

namespace Collected

variable {maxCommitted : Nat} {P : Set PBFTMessage} {prepared : OrderedMap Nat PBFTMessage}
  {p acc : PBFTMessage} {Q : Set PBFTMessage}

theorem empty (maxCommitted : Nat) : Collected maxCommitted ∅ ∅ := by
  simp [Collected, CollectedAt]

section

variable (h : Collected maxCommitted P prepared)

include h

/-- The hash that is kept is one of greatest view, since a greater view of the same hash was passed
over only where no other hash comes between. -/
theorem collectPrepared (generatedFrom : Nat) (hunbroken : Unbroken (insert p P)) :
    Collected maxCommitted (insert p P)
      (collectPrepared maxCommitted generatedFrom prepared p) := by
  intro i hi
  have hold := h i hi
  by_cases hindex : p.index = i
  case neg =>
    have hsame : (PBFTEngine.collectPrepared maxCommitted generatedFrom prepared p)[i]? =
        prepared[i]? := by
      unfold PBFTEngine.collectPrepared
      split_ifs
      · rfl
      · split
        · simp [hindex]
        · split_ifs <;> simp [hindex]
    rw [hsame]
    exact hold.insert_of_ne hindex
  subst hindex
  unfold PBFTEngine.collectPrepared
  rw [if_neg (Nat.not_lt.mpr hi)]
  split
  next hnone =>
    rw [hnone] at hold
    rw [getElem?_insert, if_pos rfl]
    exact ⟨⟨p, .inl rfl, rfl, rfl⟩, p,
      isHighest_insert_self fun q hq hindex => absurd hindex (hold q hq), rfl⟩
  next acc hacc =>
    rw [hacc] at hold
    obtain ⟨⟨q, hq, hqi, hcopy⟩, best, hbest, hhash⟩ := hold
    have hacchash : acc.hash = q.hash := by rw [hcopy]
    have haccview : acc.view = q.view := by rw [hcopy]
    split
    next hnewer =>
      rw [getElem?_insert, if_pos rfl]
      refine ⟨⟨p, .inl rfl, rfl, rfl⟩, p, isHighest_insert_self fun r hr hindex => ?_, rfl⟩
      refine (hbest.2.2 r hr hindex).trans (Nat.le_of_not_lt fun hlt => hnewer.1 ?_)
      have hbetween := hunbroken q (.inr hq) best (.inr hbest.1) p (.inl rfl)
        (hqi.trans hbest.2.1.symm) hbest.2.1.symm (hacchash.symm.trans hhash.symm)
        (haccview ▸ hnewer.2) hlt
      exact hacchash.trans hbetween.symm
    next hkept =>
      rw [hacc]
      refine ⟨⟨q, .inr hq, hqi, hcopy⟩, ?_⟩
      by_cases hview : p.view ≤ best.view
      · exact ⟨best, hbest.insert fun _ => hview, hhash⟩
      · have hle : acc.view ≤ best.view := haccview ▸ hbest.2.2 q hq hqi
        have hsame : acc.hash = p.hash := by
          by_contra hne
          exact hkept ⟨hne, by omega⟩
        exact ⟨p, isHighest_insert_self fun r hr hindex =>
          (hbest.2.2 r hr hindex).trans (Nat.le_of_not_le hview), hsame.symm⟩

theorem foldl_collectPrepared (proposals : List (Nat × PBFTMessage)) (hQ : Unbroken Q)
    (hP : ∀ p ∈ P, p ∈ Q) (hproposals : ∀ entry ∈ proposals, entry.2 ∈ Q) :
    Collected maxCommitted {p | p ∈ P ∨ ∃ entry ∈ proposals, entry.2 = p}
      (proposals.foldl (fun prepared entry =>
        PBFTEngine.collectPrepared maxCommitted entry.1 prepared entry.2) prepared) := by
  induction proposals generalizing P prepared with
  | nil => simpa using h
  | cons entry proposals ih =>
    rw [forall_mem_cons] at hproposals
    have hinsert : ∀ q ∈ insert entry.2 P, q ∈ Q := by
      rintro q (rfl | hq)
      · exact hproposals.1
      · exact hP q hq
    have hstep := h.collectPrepared entry.1 (hQ.subset hinsert)
    have hset : {q | q ∈ P ∨ ∃ found ∈ entry :: proposals, found.2 = q} =
        {q | q ∈ insert entry.2 P ∨ ∃ found ∈ proposals, found.2 = q} := by
      ext q
      simp only [mem_ofPred_eq, mem_insert_iff, exists_mem_cons_iff]
      grind
    rw [hset]
    exact ih hstep hinsert hproposals.2

end

end Collected

/-- The list has one pre-prepare for each index above the committed one up to the last prepared one.
It carries a prepared block of greatest view, or the empty one where none is prepared. -/
structure CompleteNewView (s : PBFTEngine) (committed prepared : Nat)
    (prePrepareList : List PBFTMessage) : Prop where
  indices : prePrepareList.map (·.index) = range' (committed + 1) (prepared - committed)
  highest : ∀ msg ∈ prePrepareList, ∀ p, s.IsPrepared s.config.toView p → p.index = msg.index →
    ∃ found best, s.IsPrepared s.config.toView found ∧ found.index = msg.index ∧
      IsHighest {p | s.IsPrepared s.config.toView p} msg.index best ∧
      found.hash = best.hash ∧ msg.hash = best.hash ∧
      msg.consensusProposal = found.consensusProposal
  empty : ∀ msg ∈ prePrepareList, (∀ p, s.IsPrepared s.config.toView p → p.index ≠ msg.index) →
    msg.consensusProposal = some (s.config.generateEmptyProposal msg.index s.config.nodeIndex)

theorem isPrepared_iff (s : PBFTEngine) (view : Nat) (precommit : PBFTMessage) :
    s.IsPrepared view precommit ↔ ∃ entry ∈ (s.viewChangeCache[view]?.getD ∅).toList,
      precommit ∈ entry.2.preparedProposals := by
  simp only [IsPrepared, IsCached, Prod.exists, Std.ExtTreeMap.mem_toList_iff_getElem?_eq_some]
  grind

section Complete

variable {maxCommitted i : Nat} {prepared : OrderedMap Nat PBFTMessage}

theorem prePrepareFor_of_none (s : PBFTEngine) (hnone : prepared[i]? = none) :
    s.prePrepareFor prepared i = populatePrePrepare
      (s.config.generateEmptyProposal i s.config.nodeIndex) s.config.toView s.config.nodeIndex := by
  simp [prePrepareFor, hnone]

theorem prePrepareFor_of_some (s : PBFTEngine) {acc : PBFTMessage} (hacc : prepared[i]? = some acc)
    {proposal} (hproposal : acc.consensusProposal = some proposal) :
    s.prePrepareFor prepared i = populatePrePrepare proposal s.config.toView acc.generatedFrom := by
  simp [prePrepareFor, hacc, hproposal]

section

variable (hagrees : s.Agrees)
  (h : Collected maxCommitted {p | s.IsPrepared s.config.toView p} prepared)

include hagrees h

theorem Collected.prePrepareFor (hi : maxCommitted ≤ i) : (s.prePrepareFor prepared i).index = i ∧
      ((∀ p, s.IsPrepared s.config.toView p → p.index ≠ i) ∧
          (s.prePrepareFor prepared i).consensusProposal =
            some (s.config.generateEmptyProposal i s.config.nodeIndex) ∨
        ∃ found best, s.IsPrepared s.config.toView found ∧ found.index = i ∧
          IsHighest {p | s.IsPrepared s.config.toView p} i best ∧ found.hash = best.hash ∧
          (s.prePrepareFor prepared i).hash = best.hash ∧
          (s.prePrepareFor prepared i).consensusProposal = found.consensusProposal) := by
  have hat := h i hi
  cases hacc : prepared[i]? with
  | none =>
    rw [hacc] at hat
    rw [prePrepareFor_of_none s hacc]
    exact ⟨rfl, .inl ⟨hat, rfl⟩⟩
  | some acc =>
    rw [hacc] at hat
    obtain ⟨⟨found, ⟨change, hchange, hmem⟩, hindex, hcopy⟩, best, hbest, hhash⟩ := hat
    obtain ⟨proposal, hproposal, hpindex, hphash⟩ := hagrees.consistent _ change hchange found hmem
    have haccproposal : acc.consensusProposal = some proposal := by
      rw [hcopy]
      exact hproposal
    have hfhash : found.hash = best.hash := by rw [hhash, hcopy]
    rw [prePrepareFor_of_some s hacc haccproposal]
    exact ⟨hpindex.trans hindex, .inr ⟨found, best, ⟨change, hchange, hmem⟩, hindex, hbest, hfhash,
      hphash.trans hfhash, hproposal.symm⟩⟩

theorem Collected.complete (last : Nat) :
    CompleteNewView s maxCommitted last
      ((range' (maxCommitted + 1) (last - maxCommitted)).map (s.prePrepareFor prepared)) := by
  have hle {i} (hi : i ∈ range' (maxCommitted + 1) (last - maxCommitted)) : maxCommitted ≤ i :=
    Nat.le_of_lt (mem_range'_1.mp hi).1
  refine ⟨?_, fun msg hmsg p hp hpindex => ?_, fun msg hmsg hnone => ?_⟩
  · rw [map_map]
    exact (map_congr_left fun i hi => (h.prePrepareFor hagrees (hle hi)).1).trans (map_id _)
  · obtain ⟨i, hi, rfl⟩ := mem_map.mp hmsg
    obtain ⟨hindex, ⟨hnone, -⟩ | hfound⟩ := h.prePrepareFor hagrees (hle hi)
    · exact absurd (hpindex.trans hindex) (hnone p hp)
    · rwa [hindex]
  · obtain ⟨i, hi, rfl⟩ := mem_map.mp hmsg
    obtain ⟨hindex, ⟨-, hempty⟩ | ⟨found, -, hfound, hfindex, -⟩⟩ :=
      h.prePrepareFor hagrees (hle hi)
    · rwa [hindex]
    · exact absurd (hfindex.trans hindex.symm) (hnone found hfound)

end

theorem generatePrePrepareMsg_complete (hagrees : s.Agrees)
    (hunbroken : Unbroken {p | s.IsPrepared s.config.toView p}) {committed last : Nat}
    (hcommitted : IsGreatest (s.committedIndices s.config.toView) committed)
    (hlast : IsGreatest (s.preparedIndices s.config.toView) last) :
    CompleteNewView s committed last
      (s.generatePrePrepareMsg (s.viewChangeCache[s.config.toView]?.getD ∅)) := by
  obtain ⟨change, hchange, -⟩ := hcommitted.1
  obtain ⟨hc, hp⟩ := hagrees.summarises hchange
  have hlast : IsGreatest (insert 0 (s.preparedIndices s.config.toView)) last := by
    simpa using hlast.insert 0
  -- the two loops are one over all prepared proposals, each with the sender it came from
  let proposals := (s.viewChangeCache[s.config.toView]?.getD ∅).toList.flatMap fun entry =>
    entry.2.preparedProposals.map fun p => (entry.2.generatedFrom, p)
  have hmem : ∀ p, s.IsPrepared s.config.toView p ↔ ∃ entry ∈ proposals, entry.2 = p := by
    intro p
    rw [isPrepared_iff]
    simp only [proposals, mem_flatMap, mem_map]
    grind
  have hcollected := (Collected.empty committed).foldl_collectPrepared proposals hunbroken
    (by simp) (fun entry hentry => (hmem _).mpr ⟨entry, hentry, rfl⟩)
  simp only [mem_empty_iff_false, false_or, ← hmem] at hcollected
  have hcomplete := hcollected.complete hagrees last
  simp only [proposals, foldl_flatMap, foldl_map] at hcomplete
  simp only [generatePrePrepareMsg, hc.eq_some hcommitted, hp.eq_some hlast, getD_some]
  exact hcomplete

end Complete

/-! ### The calls of a cache processor -/

/-- What happens to the view changes of a node, and everything else it does. -/
inductive ViewCall where
  | addViewChangeReq (viewChange : ViewChangeMsg)
  | removeInvalidViewChange (view latestCommitted : Nat)
  | removeConsensusedCache (view consensusedNumber : Nat)
  | resetCacheAfterViewChange (view latestCommitted : Nat)
  | checkAndTryIntoNewView
  | elsewhere (s : PBFTEngine)

def call (s : PBFTEngine) : ViewCall → PBFTEngine
  | .addViewChangeReq viewChange => s.addViewChangeReq viewChange
  | .removeInvalidViewChange view latestCommitted => s.removeInvalidViewChange view latestCommitted
  | .removeConsensusedCache view consensusedNumber =>
    s.removeConsensusedCache view consensusedNumber
  | .resetCacheAfterViewChange view latestCommitted =>
    s.resetCacheAfterViewChange view latestCommitted
  | .checkAndTryIntoNewView => s.checkAndTryIntoNewView.1
  | .elsewhere s' =>
    { s' with
      viewChangeCache := s.viewChangeCache
      viewChangeWeight := s.viewChangeWeight
      maxCommittedIndex := s.maxCommittedIndex
      maxPrecommitIndex := s.maxPrecommitIndex
      newViewGenerated := s.newViewGenerated }

/-- View changes are dropped when the maps are cleared and not otherwise, the first one of a view
finds no maxima of that view, and precommits have a proposal of their index and hash. -/
def TogetherWithMaps (s : PBFTEngine) : ViewCall → Prop
  | .addViewChangeReq viewChange =>
    (∀ precommit ∈ viewChange.preparedProposals, precommit.Consistent) ∧
      ((∀ change, ¬ s.IsCached viewChange.view change) →
        s.maxCommittedIndex[viewChange.view]? = none ∧
          s.maxPrecommitIndex[viewChange.view]? = none)
  | .removeInvalidViewChange low latestCommitted => ∀ view change, low < view →
      s.IsCached view change → latestCommitted ≤ change.index
  | .removeConsensusedCache low number | .resetCacheAfterViewChange low number =>
    ∀ view change, low < view → s.IsCached view change → change.index < number
  | .checkAndTryIntoNewView | .elsewhere _ => True

theorem checkAndTryIntoNewView_cases (s : PBFTEngine) :
    s.checkAndTryIntoNewView = (s, none) ∨
      ∃ newView, s.checkAndTryIntoNewView =
          ({ s with newViewGenerated := true }.send (.newView newView), some newView) ∧
        newView.prePrepareList =
          s.generatePrePrepareMsg (s.viewChangeCache[s.config.toView]?.getD ∅) := by
  unfold checkAndTryIntoNewView
  dsimp only
  split
  · exact .inl rfl
  split
  · exact .inl rfl
  split
  · exact .inl rfl
  split
  · exact .inl rfl
  · refine .inr ⟨_, rfl, ?_⟩
    rfl

theorem Agrees.call (h : s.Agrees) {event : ViewCall} (hevent : s.TogetherWithMaps event) :
    (s.call event).Agrees := by
  cases event with
  | addViewChangeReq => exact h.addViewChangeReq hevent.1 hevent.2
  | removeInvalidViewChange => exact h.removeInvalidViewChange hevent
  | removeConsensusedCache | resetCacheAfterViewChange => exact .of_cleared rfl hevent
  | checkAndTryIntoNewView =>
    rcases s.checkAndTryIntoNewView_cases with heq | ⟨_, heq, -⟩
    · simp only [PBFTEngine.call, heq]
      exact h
    · simp only [PBFTEngine.call, heq]
      exact ⟨h.committed, h.prepared, h.consistent⟩
  | elsewhere => exact ⟨h.committed, h.prepared, h.consistent⟩

theorem IsInit.agrees (h : s.IsInit) : s.Agrees := by
  obtain ⟨_, _, _, _, _, rfl⟩ := h
  exact .of_none fun _ _ hchange => by simp [IsCached, init] at hchange

/-- In every run in which the maps are kept together with the view changes, a new view is complete
if no other hash is prepared between two views of one hash. -/
theorem newView_complete (hs : s.IsInit) {calls : List ViewCall}
    (h : Foundation.Along call TogetherWithMaps s calls) {newView : NewViewMsg}
    (hnew : (calls.foldl call s).checkAndTryIntoNewView.2 = some newView)
    (hunbroken : Unbroken {p | (calls.foldl call s).IsPrepared
      (calls.foldl call s).config.toView p}) {committed last : Nat}
    (hcommitted : IsGreatest ((calls.foldl call s).committedIndices
      (calls.foldl call s).config.toView) committed)
    (hlast : IsGreatest ((calls.foldl call s).preparedIndices
      (calls.foldl call s).config.toView) last) :
    CompleteNewView (calls.foldl call s) committed last newView.prePrepareList := by
  have hagrees : (calls.foldl call s).Agrees :=
    h.invariant (fun s _ hs hevent => hs.call hevent) hs.agrees
  have hcomplete := generatePrePrepareMsg_complete hagrees hunbroken hcommitted hlast
  rcases checkAndTryIntoNewView_cases (calls.foldl call s) with heq | ⟨_, heq, hlist⟩
  · simp [heq] at hnew
  · rw [heq] at hnew
    rw [← some.inj hnew, hlist]
    exact hcomplete

end PBFTEngine

/-! ### Node `1` leads view `2` -/

def precommitWith (view index : Nat) (hash : HashType) : PBFTMessage :=
  { prePrepareOf 3 view index hash with
    consensusProposal := some {
      index := index
      hash := hash
      signatureProof := [0, 1, 2].map fun node => (node, pairingSuite.sign node hash) } }

def changeToView2 (node : Nat) (prepared : List PBFTMessage) : ViewChangeMsg :=
  ViewChangeMsg.encode pairingSuite node {
    view := 2
    index := 2
    hash := 7
    generatedFrom := node
    committedProposal := { index := 2, hash := 7 }
    preparedProposals := prepared }

def recoverResponseOf (node : Nat) : PBFTMessage :=
  { voteOf .recoverResponse node 1 2 0 with consensusProposal := none }

def prepared34 : List PBFTMessage := [precommitWith 0 3 11, precommitWith 0 4 12]

open PBFTEngine in
/-- Three view changes come in while the node waits for view `2`. -/
def callsOfView2 : List ViewCall :=
  [.elsewhere { startNode 1 with config := { (startNode 1).config with toView := 2 } },
    .addViewChangeReq (changeToView2 0 prepared34), .addViewChangeReq (changeToView2 1 []),
    .addViewChangeReq (changeToView2 2 [])]

open PBFTEngine in
theorem callsOfView2_together :
    Foundation.Along call TogetherWithMaps (startNode 1) callsOfView2 := by
  refine ⟨trivial, ⟨by decide +kernel, fun _ => ?_⟩, ⟨by decide +kernel, fun hnone => ?_⟩,
    ⟨by decide +kernel, fun hnone => ?_⟩, trivial⟩
  · decide +kernel
  · exact absurd ⟨0, by decide +kernel⟩ (hnone (changeToView2 0 prepared34))
  · exact absurd ⟨0, by decide +kernel⟩ (hnone (changeToView2 0 prepared34))

open PBFTEngine in
theorem newView_complete_callsOfView2 : ∃ newView : NewViewMsg,
    (callsOfView2.foldl call (startNode 1)).checkAndTryIntoNewView.2 = some newView ∧
    CompleteNewView (callsOfView2.foldl call (startNode 1)) 2 4 newView.prePrepareList ∧
    newView.prePrepareList.map (·.hash) = [11, 12] := by
  have hinit : (startNode 1).IsInit := ⟨_, _, _, _, _, rfl⟩
  have hagrees : (callsOfView2.foldl call (startNode 1)).Agrees :=
    callsOfView2_together.invariant (fun s _ hs hevent => hs.call hevent) hinit.agrees
  have hcached : (callsOfView2.foldl call (startNode 1)).IsCached 2 (changeToView2 0 prepared34) :=
    ⟨0, by decide +kernel⟩
  obtain ⟨hcommitted, hlast⟩ := hagrees.summarises hcached
  have hview : ∀ entry ∈ ((callsOfView2.foldl call (startNode 1)).viewChangeCache[2]?.getD
      ∅).toList, ∀ p ∈ entry.2.preparedProposals, p.view = 0 := by decide +kernel
  have hunbroken : Unbroken {p | (callsOfView2.foldl call (startNode 1)).IsPrepared 2 p} := by
    intro p _ q hq r _ _ _ _ _ hlt
    obtain ⟨entry, hentry, hmem⟩ := (isPrepared_iff _ _ q).mp hq
    rw [hview entry hentry q hmem] at hlt
    exact absurd hlt (Nat.not_lt_zero _)
  have hsome : (callsOfView2.foldl call (startNode 1)).checkAndTryIntoNewView.2.map
      (fun newView => newView.prePrepareList.map (·.hash)) = some [11, 12] := by decide +kernel
  obtain ⟨newView, hnew, hhashes⟩ := Option.map_eq_some_iff.mp hsome
  exact ⟨newView, hnew, newView_complete hinit callsOfView2_together hnew hunbroken
    hcommitted.isGreatest ⟨hlast.isGreatest.1.resolve_left (by decide),
      fun _ hi => hlast.isGreatest.2 (.inr hi)⟩, hhashes⟩

def changesOf (first second : List PBFTMessage) (between : List Input) : List Input :=
  [.message (.viewChange (changeToView2 0 first))] ++ between ++
    [.message (.viewChange (changeToView2 2 second))]

def sentNewViews (s : PBFTEngine) : List NewViewMsg :=
  s.sent.filterMap fun
    | .newView newView => some newView
    | .pbft _ | .viewChange _ => none

/-- Enough nodes tell that they are in view `1`, and the node leaves it. -/
def recoverToView1 : List Input :=
  [0, 2, 3].map (fun node => .message (.pbft (recoverResponseOf node))) ++ [.timeout]

/-- The node enters view `1` after the first view change for view `2`, and forgets its maxima: the
new view is empty, and index `4` is prepared.  In the second run hash `11` is prepared in
views `0` and `2` and hash `12` in view `1`, and the new view has hash `12`. -/
theorem newView_incomplete :
    (∃ newView ∈ sentNewViews ((startNode 1).run (changesOf prepared34 [] recoverToView1)),
      (∃ change ∈ newView.viewChangeMsgList, ∃ p ∈ change.preparedProposals, p.index = 4) ∧
      newView.prePrepareList = []) ∧
    (∃ newView ∈ sentNewViews ((startNode 1).run (changesOf [precommitWith 0 3 11]
        [precommitWith 2 3 11, precommitWith 1 3 12] [.timeout, .timeout])),
      (newView.viewChangeMsgList.flatMap (·.preparedProposals)).map (fun p => (p.view, p.hash)) =
        [(0, 11), (2, 11), (1, 12)] ∧
      newView.prePrepareList.map (fun msg => (msg.index, msg.hash)) = [(3, 12)]) := by
  decide +kernel

end Loki.Fisco
