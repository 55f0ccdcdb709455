import Mathlib.Algebra.BigOperators.Group.List.Basic
import Mathlib.Algebra.Order.Ring.Nat
import Mathlib.Data.Finset.Sort

/-!
# Dispatching the DAG transactions of a block

The set-up loop of `BlockExecutive::asyncExecute` and `BlockExecutive::DAGExecute`.  The
executors' answers come in any order and are handled one after another.
-/

namespace Loki.Fisco.DAGExecute

open List

/-- The address of a transaction's message and whether its attribute has the DAG bit. -/
structure Transaction (α : Type) where
  contract : α
  dag : Bool
  deriving DecidableEq

variable {α : Type} [LinearOrder α]

/-- The states of the set-up loop, with `enableDAG` as `dag`: `withDAG` is never cleared. -/
def executiveStates (withDAG : Bool) : List (Transaction α) → List (Transaction α)
  | [] => []
  | tx :: txs =>
    let withDAG := withDAG || tx.dag
    ⟨tx.contract, withDAG⟩ :: executiveStates withDAG txs

/-- For each key of the multimap, the context ids of its messages. -/
def requests (states : List (Transaction α)) : List (α × List ℕ) :=
  (((states.filter (·.dag)).map (·.contract)).toFinset.sort (· ≤ ·)).map fun c =>
    (c, states.idxsOf ⟨c, true⟩)

/-- An executor's answer to a request of `messages` messages. -/
structure Answer where
  messages : ℕ
  error : Bool
  responseMessages : ℕ

def Answer.failed (a : Answer) : Bool := a.error || a.messages != a.responseMessages

/-- The calls of the callback, each with whether it gets an error. -/
def callbacks (totalCount : Int) (failed : Bool) : List Answer → List Bool
  | [] => []
  | a :: answers =>
    let failed := failed || a.failed
    let totalCount := totalCount - a.responseMessages
    (if totalCount = 0 then [failed] else []) ++ callbacks totalCount failed answers

def dagExecute (states : List (Transaction α)) (answers : List Answer) : List Bool :=
  let totalCount : ℕ := ((requests states).map (·.2.length)).sum
  if (requests states).isEmpty then [false] else callbacks totalCount false answers

/-- Exactly the transactions with the DAG bit are sent, once each, grouped and in order. -/
structure Exact (txs : List (Transaction α)) (requests : List (α × List ℕ)) : Prop where
  sent : ∀ i c, (∃ is, (c, is) ∈ requests ∧ i ∈ is) ↔ txs[i]? = some ⟨c, true⟩
  grouped : (requests.map (·.1)).Nodup
  inOrder : ∀ r ∈ requests, r.2.Pairwise (· < ·)

variable {states txs : List (Transaction α)}

theorem mem_requests {r : α × List ℕ} : r ∈ requests states ↔
    ⟨r.1, true⟩ ∈ states ∧ states.idxsOf ⟨r.1, true⟩ = r.2 := by
  obtain ⟨c, _⟩ := r
  simp only [requests, mem_map, Finset.mem_sort, mem_toFinset, mem_filter, Prod.mk.injEq]
  constructor
  · rintro ⟨_, ⟨⟨c, _⟩, ⟨hmem, rfl⟩, rfl⟩, rfl, heq⟩
    exact ⟨hmem, heq⟩
  · rintro ⟨hmem, heq⟩
    exact ⟨c, ⟨_, ⟨hmem, rfl⟩, rfl⟩, rfl, heq⟩

theorem sent_iff (i : ℕ) (c : α) :
    (∃ is, (c, is) ∈ requests states ∧ i ∈ is) ↔ states[i]? = some ⟨c, true⟩ := by
  simp only [mem_requests, getElem?_eq_some_iff]
  constructor
  · rintro ⟨_, ⟨-, rfl⟩, hi⟩
    simpa using hi
  · rintro ⟨hi, heq⟩
    exact ⟨_, ⟨heq ▸ getElem_mem hi, rfl⟩, by simp [hi, heq]⟩

theorem requests_exact_iff : Exact txs (requests states) ↔
    ∀ (i : ℕ) (c : α), states[i]? = some ⟨c, true⟩ ↔ txs[i]? = some ⟨c, true⟩ := by
  constructor
  · intro h i c
    rw [← sent_iff, h.sent]
  · intro h
    refine ⟨fun i c => (sent_iff i c).trans (h i c), ?_, ?_⟩
    · simp only [requests, map_map, Function.comp_def, map_id']
      exact Finset.sort_nodup _ _
    · intro r hr
      rw [← (mem_requests.mp hr).2]
      exact pairwise_idxsOf

omit [LinearOrder α] in
theorem executiveStates_iff (withDAG : Bool) (txs : List (Transaction α)) :
    (∀ (i : ℕ) c, (executiveStates withDAG txs)[i]? = some ⟨c, true⟩ ↔ txs[i]? = some ⟨c, true⟩) ↔
      (withDAG → ∀ tx ∈ txs, tx.dag) ∧ txs.Pairwise fun a b => a.dag → b.dag := by
  induction txs generalizing withDAG with
  | nil => simp [executiveStates]
  | cons tx _ ih =>
    rw [← Nat.and_forall_add_one]
    simp only [executiveStates, getElem?_cons_zero, getElem?_cons_succ, ih]
    obtain ⟨_, dag⟩ := tx
    cases withDAG <;> cases dag <;> simp

theorem callbacks_eq (failed : Bool) {n : ℕ} {answers : List Answer} (hne : answers ≠ [])
    (hn : (answers.map (·.messages)).sum = n)
    (h : ∀ a ∈ answers, a.responseMessages = a.messages ∧ 0 < a.messages) :
    callbacks n failed answers = [failed || answers.any (·.failed)] := by
  induction answers generalizing failed n with
  | nil => exact absurd rfl hne
  | cons _ answers ih =>
    obtain ⟨⟨ha, -⟩, h⟩ := forall_mem_cons.mp h
    rw [map_cons, sum_cons] at hn
    rw [callbacks, any_cons, ha, ← hn, Int.natCast_add, add_sub_cancel_left, ← Bool.or_assoc]
    rcases answers with - | ⟨b, _⟩
    · simp [callbacks]
    · rw [if_neg, nil_append, ih _ (cons_ne_nil _ _) rfl h]
      have := (h b (mem_cons_self ..)).2
      rw [map_cons, sum_cons]
      omega

theorem dagExecute_exact (txs : List (Transaction α)) : let states := executiveStates false txs
    (Exact txs (requests states) ↔ txs.Pairwise fun a b => a.dag → b.dag) ∧
    ∀ answers : List Answer, answers.map (·.messages) ~ (requests states).map (·.2.length) →
      (∀ a ∈ answers, a.responseMessages = a.messages) →
      dagExecute states answers = [answers.any (·.failed)] := by
  refine ⟨by simp [requests_exact_iff, executiveStates_iff], fun _ hperm hall => ?_⟩
  rw [dagExecute]
  split_ifs with hnil
  · simp only [isEmpty_iff.mp hnil, map_nil, perm_nil, map_eq_nil_iff] at hperm
    rw [hperm, any_nil]
  · refine callbacks_eq false ?_ hperm.sum_eq fun a ha => ⟨hall a ha, ?_⟩
    · rintro rfl
      simp_all
    · obtain ⟨r, hr, heq⟩ := mem_map.mp (hperm.subset (mem_map_of_mem ha))
      rw [← heq, ← (mem_requests.mp hr).2, length_idxsOf, count_pos_iff]
      exact (mem_requests.mp hr).1

/-- The second transaction has no DAG bit, and an executor that fails may return nothing. -/
theorem dagExecute_not_exact : let states := executiveStates false [⟨7, true⟩, ⟨7, false⟩]
    requests states = [(7, [0, 1])] ∧ dagExecute states [⟨2, true, 0⟩] = [] := by
  simp [requests, executiveStates, dagExecute, callbacks]

end Loki.Fisco.DAGExecute
