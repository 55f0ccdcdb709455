import Loki.Fisco.Executor.TxDAG
import Loki.Foundation.History
import Mathlib.Data.List.Perm.Basic

/-!
# Parallel execution of a block

`TxDAG::executeUnit` with `DAG::waitPop` and `DAG::consume` of `bcos-executor/src/dag`, run by
several workers.  A step is one atomic action of one worker: a pop of the queue, which may
time out on an empty one, the start and the end of an execution, one `fetch_sub`, one push, or
the end of `consume`.  A schedule is the list of workers that take the steps.

`dagExecuteTransactionsForEvm` makes an executive and call parameters for the transactions with
critical fields.  An execution takes the call parameters away, and without them there is none.

A transaction is released when all edges into it have been taken down.  It is then in the
queue, in the hand of one worker, or consumed.
-/

namespace Loki.Fisco

open Loki.Foundation List Option TxDAG Function Nat

inductive Worker where
  | waiting
  | ready (id : Nat)
  | executing (id : Nat)
  | consuming (id : Nat) (edges : List Nat) (nextId : Option Nat)
  | pushing (id produced : Nat) (edges : List Nat) (nextId : Nat)
  | returned
  deriving DecidableEq, Repr

inductive ExecutionEvent where
  | start (id : Nat)
  | finish (id : Nat)
  | consumed (id : Nat)
  deriving DecidableEq, Repr

def ExecutionEvent.id : ExecutionEvent → Nat
  | .start id | .finish id | .consumed id => id

/-- What `executeUnit` does with the result of `consume`. -/
def Worker.next : Option Nat → Worker
  | some id => .ready id
  | none => .waiting

structure ParallelExecution where
  dag : DAG
  callParameters : Nat → Bool
  workers : List Worker
  log : List ExecutionEvent

namespace DAG

variable (dag : DAG) (id : Nat)

def waitPop : Option Nat × DAG :=
  match dag.topLevel with
  | id :: rest => (some id, { dag with topLevel := rest })
  | [] => (none, dag)

def fetchSub : Nat × DAG :=
  let lastDegree := (dag.vtxs id).inDegree
  (lastDegree, dag.setInDegree id ((lastDegree + (idRange - 1)) % idRange))

def push : DAG := { dag with topLevel := dag.topLevel ++ [id] }

def countConsumed : DAG := { dag with totalConsume := (dag.totalConsume + 1) % idRange }

end DAG

open DAG

namespace ParallelExecution

/-- One atomic action of a worker.  `waitPop` on an empty queue gives up. -/
def advance (dag : DAG) (callParameters : Nat → Bool) :
    Worker → Option (DAG × (Nat → Bool) × List ExecutionEvent × Worker)
  | .waiting =>
    match dag.waitPop with
    | (some id, dag) => some (dag, callParameters, [], .ready id)
    | (none, dag) => some (dag, callParameters, [], .returned)
  | .ready id =>
    if callParameters id then
      some (dag, update callParameters id false, [.start id], .executing id)
    else some (dag, callParameters, [], .consuming id (dag.vtxs id).outEdge none)
  | .executing id =>
    some (dag, callParameters, [.finish id], .consuming id (dag.vtxs id).outEdge none)
  | .consuming id (produced :: edges) nextId =>
    let (lastDegree, dag) := dag.fetchSub produced
    if lastDegree = 1 then
      match nextId with
      | none => some (dag, callParameters, [], .consuming id edges (some produced))
      | some nextId => some (dag, callParameters, [], .pushing id produced edges nextId)
    else some (dag, callParameters, [], .consuming id edges nextId)
  | .pushing id produced edges nextId =>
    some (dag.push produced, callParameters, [], .consuming id edges (some nextId))
  | .consuming id [] nextId =>
    some (dag.countConsumed, callParameters, [.consumed id], .next nextId)
  | .returned => none

variable (s : ParallelExecution)

def step (w : Nat) : Option ParallelExecution := do
  let worker ← s.workers[w]?
  let (dag, callParameters, events, worker) ← advance s.dag s.callParameters worker
  return ⟨dag, callParameters, s.workers.set w worker, s.log ++ events⟩

def run (schedule : List Nat) : Option ParallelExecution := schedule.foldlM step s

def start {F : Type} [DecidableEq F] (txsCriticals : List (List F)) (workers : Nat) :
    ParallelExecution where
  dag := init txsCriticals
  callParameters id := txsCriticals.getD id [] ≠ []
  workers := replicate workers .waiting
  log := []

/-- The loop of `TxDAG::init` runs over an `ID`, so it ends only when the number of
transactions fits into one. -/
def execute {F : Type} [DecidableEq F] (txsCriticals : List (List F)) (workers : Nat)
    (schedule : List Nat) : Option ParallelExecution :=
  if txsCriticals.length < idRange then (start txsCriticals workers).run schedule else none

def AllReturned : Prop := ∀ worker ∈ s.workers, worker = .returned

end ParallelExecution

/-! ## What the workers hold -/

namespace Worker

def hand : Worker → List Nat
  | .waiting | .returned => []
  | .ready id | .executing id => [id]
  | .consuming id _ nextId => id :: nextId.toList
  | .pushing id produced _ nextId => [id, produced, nextId]

/-- What the log has of a transaction with critical fields that is not consumed yet. -/
def progress : Worker → List ExecutionEvent
  | .waiting | .returned | .ready _ => []
  | .executing id => [.start id]
  | .consuming id _ _ | .pushing id _ _ _ => [.start id, .finish id]

/-- The edges that are still to be taken down. -/
def rest : Worker → List Nat
  | .consuming _ edges _ | .pushing _ _ edges _ => edges
  | _ => []

variable {α : Type} [DecidableEq α] (f : Worker → List α) (worker : Worker)
  (workers : List Worker) (j : α)

def tally : Nat := (workers.map fun worker => (f worker).count j).sum

@[simp] theorem tally_cons :
    tally f (worker :: workers) j = (f worker).count j + tally f workers j := by
  simp [tally]

variable {workers : List Worker} {f : Worker → List α} {j : α}

theorem tally_perm (f : Worker → List α) {workers' : List Worker} (h : workers.Perm workers')
    (j : α) : tally f workers j = tally f workers' j :=
  (h.map _).sum_eq

theorem tally_progress_le (workers : List Worker) (e : ExecutionEvent) :
    tally progress workers e ≤ tally hand workers e.id := by
  induction workers with
  | nil => exact le_refl _
  | cons worker =>
    have : worker.progress.count e ≤ worker.hand.count e.id := by
      cases worker <;> cases e <;> simp [progress, hand, count_cons, ExecutionEvent.id]
    rw [tally_cons, tally_cons]
    omega

theorem tally_eq_zero {worker} (h : ∀ other ∈ workers, other = worker) (hf : f worker = [])
    (j : α) : tally f workers j = 0 := by
  induction workers with
  | nil => rfl
  | cons _ _ ih =>
    rw [tally_cons, h _ mem_cons_self, hf, ih fun w hw => h w (mem_cons_of_mem _ hw), count_nil]

end Worker

namespace ParallelExecution

open Worker

/-- What stands in the log before an event. -/
def Follows (edges : Nat → List Nat) (before : List ExecutionEvent) : ExecutionEvent → Prop
  | .start j => ∀ i, j ∈ edges i → .finish i ∈ before
  | .finish j => .start j ∈ before
  | .consumed _ => True

/-- The edges out of the transactions that have not finished. -/
def unfinished (edges : Nat → List Nat) (log : List ExecutionEvent) : Nat → List Nat :=
  fun i => if .finish i ∈ log then [] else edges i

theorem unfinished_concat {edges log} {event : ExecutionEvent} (h : ∀ i, event ≠ .finish i) :
    unfinished edges (log ++ [event]) = unfinished edges log := by
  funext i
  simp [unfinished, (h i).symm]

/-- What the run starts from: edges go forward, and only out of transactions in `given`, those
with call parameters. -/
structure ConflictGraph where
  size : Nat
  edges : Nat → List Nat
  given : Nat → Bool
  forward : ∀ i j, j ∈ edges i → given i ∧ i < j ∧ j < size

structure Inv (G : ConflictGraph) (dag : DAG) (params : Nat → Bool) (workers : List Worker)
    (log : List ExecutionEvent) : Prop where
  outEdge : dag.edges = G.edges
  degree : ∀ j, (dag.vtxs j).inDegree =
    incoming G.size (unfinished G.edges log) j + tally rest workers j
  small : ∀ j, (dag.vtxs j).inDegree < idRange
  bounded : ∀ j, G.size ≤ j → (dag.vtxs j).inDegree = 0
  released : ∀ j, dag.topLevel.count j + tally hand workers j + log.count (.consumed j) =
    if j < G.size ∧ (dag.vtxs j).inDegree = 0 then 1 else 0
  logged : ∀ e, G.given e.id → log.count e = tally progress workers e + log.count (.consumed e.id)
  skipped : ∀ j, ¬ G.given j → .start j ∉ log ∧ .executing j ∉ workers
  held : ∀ j, params j ↔ G.given j ∧ .start j ∉ log
  ordered : Throughout (Follows G.edges) log
  active : (∃ worker ∈ workers, worker ≠ .returned) ∨ dag.topLevel = []

namespace Inv

variable {G : ConflictGraph} {params params' : Nat → Bool} {dag dag' : DAG}
  {workers : List Worker} {worker worker' : Worker} {log events : List ExecutionEvent}
  {id produced : Nat} {es : List Nat} {nextId : Option Nat}

theorem perm {workers' : List Worker} (h : Inv G dag params workers log)
    (hperm : workers.Perm workers') : Inv G dag params workers' log := by
  exact { h with
    degree := fun j => tally_perm rest hperm j ▸ h.degree j
    released := fun j => tally_perm hand hperm j ▸ h.released j
    logged := fun e => tally_perm progress hperm e ▸ h.logged e
    skipped := by simpa [hperm.mem_iff] using h.skipped
    active := by simpa [hperm.mem_iff] using h.active }

theorem of_mem_hand (h : Inv G dag params (worker :: workers) log) {j : Nat}
    (hj : j ∈ worker.hand) :
    j < G.size ∧ (dag.vtxs j).inDegree = 0 ∧ tally hand workers j = 0 ∧ .consumed j ∉ log := by
  have hreleased := h.released j
  have hpos := count_pos_iff.mpr hj
  rw [tally_cons] at hreleased
  split at hreleased
  · rename_i hzero
    refine ⟨hzero.1, hzero.2, by omega, ?_⟩
    rw [← count_eq_zero]
    omega
  · omega

/-- An event of a transaction in the hand of a worker is in the log as often as the worker has
made it. -/
theorem count_of_mem_hand (h : Inv G dag params (worker :: workers) log) {e : ExecutionEvent}
    (he : e.id ∈ worker.hand) (hgiven : G.given e.id) :
    log.count e = worker.progress.count e := by
  obtain ⟨-, -, _, hconsumed⟩ := h.of_mem_hand he
  have := tally_progress_le workers e
  rw [h.logged e hgiven, tally_cons, count_eq_zero.mpr hconsumed]
  omega

theorem ready_of_waiting {rest : List Nat} (h : Inv G dag params (.waiting :: workers) log)
    (hqueue : dag.topLevel = id :: rest) :
    Inv G { dag with topLevel := rest } params (.ready id :: workers) log := by
  exact { h with
    degree := by simpa [Worker.rest] using h.degree
    released := by
      intro j
      rw [← h.released j, hqueue]
      simp only [tally_cons, hand, count_cons, count_nil]
      omega
    logged := by simpa [progress] using h.logged
    skipped := by simpa using h.skipped
    active := .inl ⟨_, mem_cons_self, by simp⟩ }

theorem returned_of_waiting (h : Inv G dag params (.waiting :: workers) log)
    (hqueue : dag.topLevel = []) : Inv G dag params (.returned :: workers) log := by
  exact { h with
    degree := by simpa [rest] using h.degree
    released := by simpa [hand] using h.released
    logged := by simpa [progress] using h.logged
    skipped := by simpa using h.skipped
    active := .inr hqueue }

theorem finish_mem_of_degree (h : Inv G dag params workers log)
    (hzero : (dag.vtxs id).inDegree = 0) {i : Nat} (hi : id ∈ G.edges i) : .finish i ∈ log := by
  by_contra hnot
  have hincoming : incoming G.size (unfinished G.edges log) id = 0 := by
    have := h.degree id
    omega
  have hlt : i < G.size := by
    have := G.forward i id hi
    omega
  have hcount := Finset.sum_eq_zero_iff.mp hincoming i (Finset.mem_range.mpr hlt)
  rw [unfinished, if_neg hnot, count_eq_zero] at hcount
  exact hcount hi

theorem executing_of_ready (h : Inv G dag params (.ready id :: workers) log) (hid : params id) :
    Inv G dag (update params id false) (.executing id :: workers) (log ++ [.start id]) := by
  obtain ⟨_, hzero, -⟩ := h.of_mem_hand (j := id) (by simp [hand])
  exact { h with
    degree := by
      rw [unfinished_concat (by simp)]
      simpa [rest] using h.degree
    released := by simpa [hand, count_cons] using h.released
    logged := by
      intro e he
      rw [count_append, h.logged e he]
      simp only [tally_cons, progress, count_cons, count_nil, count_append]
      grind
    skipped := by
      intro j hj
      have := h.skipped j hj
      have := (h.held id).mp hid
      grind
    held := by
      intro j
      have := h.held j
      simp only [update_apply]
      grind
    ordered := throughout_concat.mpr ⟨h.ordered, fun _ hi => h.finish_mem_of_degree hzero hi⟩
    active := .inl ⟨_, mem_cons_self, by simp⟩ }

/-- A transaction without call parameters has no critical fields, and so no edges. -/
theorem consuming_of_ready (h : Inv G dag params (.ready id :: workers) log) (hid : ¬ params id) :
    Inv G dag params (.consuming id (dag.vtxs id).outEdge none :: workers) log := by
  have hgiven : ¬ G.given id := by
    intro hgiven
    have hcount := h.count_of_mem_hand (e := .start id) (by simp [hand, ExecutionEvent.id]) hgiven
    exact hid ((h.held id).mpr ⟨hgiven, count_eq_zero.mp hcount⟩)
  have hedges : (dag.vtxs id).outEdge = [] := by
    refine eq_nil_iff_forall_not_mem.mpr fun j hj => hgiven (G.forward id j ?_).1
    rw [← h.outEdge]
    exact hj
  exact { h with
    degree := by simpa [rest, hedges] using h.degree
    released := by simpa [hand] using h.released
    logged := by
      intro e he
      rw [h.logged e he]
      simp only [tally_cons, progress, count_cons, count_nil]
      grind [ExecutionEvent.id]
    skipped := by simpa using h.skipped
    active := .inl ⟨_, mem_cons_self, by simp⟩ }

theorem consuming_of_executing (h : Inv G dag params (.executing id :: workers) log) :
    Inv G dag params (.consuming id (dag.vtxs id).outEdge none :: workers)
      (log ++ [.finish id]) := by
  obtain ⟨hid, -⟩ := h.of_mem_hand (j := id) (by simp [hand])
  have hgiven : G.given id := by
    by_contra hnot
    exact (h.skipped id hnot).2 mem_cons_self
  have hcount (e : ExecutionEvent) (he : e.id = id) : log.count e = [.start id].count e :=
    h.count_of_mem_hand (by simp [hand, he]) (he ▸ hgiven)
  have hfresh : .finish id ∉ log := count_eq_zero.mp (hcount _ rfl)
  have hfinished : unfinished G.edges (log ++ [.finish id]) =
      update (unfinished G.edges log) id [] := by
    funext i
    by_cases hi : i = id <;> simp [unfinished, hi]
  exact { h with
    degree := by
      intro j
      -- the edges of the transaction pass into the hands of the worker
      have hincoming := incoming_update (unfinished G.edges log) hid [] j
      rw [unfinished, if_neg hfresh, ← h.outEdge, count_nil] at hincoming
      rw [h.degree, hfinished, tally_cons, tally_cons, ← h.outEdge]
      simp only [rest, count_nil]
      rw [DAG.edges] at hincoming
      omega
    released := by simpa [hand, count_cons] using h.released
    logged := by
      intro e he
      rw [count_append, h.logged e he]
      simp only [tally_cons, progress, count_cons, count_nil, count_append]
      grind
    skipped := by
      intro j hj
      simpa using ⟨(h.skipped j hj).1, fun hmem => (h.skipped j hj).2 (mem_cons_of_mem _ hmem)⟩
    held := by simpa using h.held
    ordered := by
      refine throughout_concat.mpr ⟨h.ordered, count_pos_iff.mp ?_⟩
      rw [hcount _ rfl]
      simp
    active := .inl ⟨_, mem_cons_self, by simp⟩ }

theorem consuming_of_pushing {nextId : Nat}
    (h : Inv G dag params (.pushing id produced es nextId :: workers) log) :
    Inv G (dag.push produced) params (.consuming id es (some nextId) :: workers) log := by
  exact { h with
    degree := by simpa [rest, push] using h.degree
    released := by
      intro j
      refine Eq.trans ?_ (h.released j)
      simp only [push, tally_cons, hand, toList_some, count_cons, count_nil, count_append]
      omega
    logged := by simpa [progress] using h.logged
    skipped := by simpa using h.skipped
    active := .inl ⟨_, mem_cons_self, by simp⟩ }

theorem next_of_consuming (h : Inv G dag params (.consuming id [] nextId :: workers) log) :
    Inv G dag.countConsumed params (.next nextId :: workers) (log ++ [.consumed id]) := by
  exact { h with
    degree := by
      rw [unfinished_concat (by simp)]
      cases nextId <;> simpa [rest, Worker.next, countConsumed] using h.degree
    released := by
      intro j
      refine Eq.trans ?_ (h.released j)
      cases nextId <;>
        simp only [countConsumed, tally_cons, hand, Worker.next, toList_some,
          toList_none, count_cons, count_nil, count_append] <;> grind
    logged := by
      intro e he
      have hnext : (Worker.next nextId).progress = [] := by cases nextId <;> rfl
      rw [count_append, h.logged e he, tally_cons, tally_cons, hnext]
      simp only [progress, count_cons, count_nil, count_append]
      cases e <;> grind [ExecutionEvent.id]
    skipped := by cases nextId <;> simpa [Worker.next] using h.skipped
    held := by simpa using h.held
    ordered := throughout_concat.mpr ⟨h.ordered, trivial⟩
    active := .inl ⟨_, mem_cons_self, by cases nextId <;> simp [Worker.next]⟩ }

theorem fetchSub_inDegree (hpos : 0 < (dag.vtxs produced).inDegree)
    (hsmall : (dag.vtxs produced).inDegree < idRange) (j : Nat) :
    ((dag.fetchSub produced).2.vtxs j).inDegree + (if produced = j then 1 else 0) =
      (dag.vtxs j).inDegree := by
  simp only [DAG.fetchSub, DAG.setInDegree, DAG.set, update_apply]
  by_cases hj : produced = j
  · subst hj
    have heq : (dag.vtxs produced).inDegree + (idRange - 1) =
        (dag.vtxs produced).inDegree - 1 + idRange := by omega
    rw [if_pos rfl, if_pos rfl, heq, add_mod_right, mod_eq_of_lt (by omega)]
    exact Nat.sub_add_cancel hpos
  · rw [if_neg hj, if_neg (Ne.symm hj), add_zero]

@[simp] theorem fetchSub_edges (dag : DAG) (produced : Nat) :
    (dag.fetchSub produced).2.edges = dag.edges := by
  funext i
  simp only [DAG.edges, DAG.fetchSub, DAG.setInDegree, DAG.set, update_apply]
  split
  · rename_i hi
    rw [hi]
  · rfl

theorem takeDown (h : Inv G dag params (.consuming id (produced :: es) nextId :: workers) log)
    (hrest : worker'.rest = es)
    (hhand : ∀ j, worker'.hand.count j = (id :: nextId.toList).count j +
      if (dag.vtxs produced).inDegree = 1 ∧ produced = j then 1 else 0)
    (hprogress : worker'.progress = [.start id, .finish id])
    (hreturned : worker' ≠ .returned) :
    Inv G (dag.fetchSub produced).2 params (worker' :: workers) log := by
  have hold := h.degree
  simp only [tally_cons, rest, count_cons, beq_iff_eq] at hold
  have hpos : 0 < (dag.vtxs produced).inDegree := by
    rw [hold, if_pos rfl]
    omega
  have hproduced : produced < G.size := by
    by_contra hge
    have := h.bounded produced (by omega)
    omega
  have hnew := fetchSub_inDegree hpos (h.small produced)
  constructor
  case outEdge => rw [fetchSub_edges, h.outEdge]
  case degree =>
    intro j
    have := hnew j
    have := hold j
    rw [tally_cons, hrest]
    omega
  case small =>
    intro j
    have := hnew j
    have := h.small j
    omega
  case bounded =>
    intro j hj
    have := hnew j
    have := h.bounded j hj
    omega
  case released =>
    intro j
    have hreleased := h.released j
    have := hnew j
    have htop : (dag.fetchSub produced).2.topLevel = dag.topLevel := rfl
    rw [tally_cons, hand] at hreleased
    rw [tally_cons, hhand, htop]
    by_cases hj : produced = j
    · subst hj
      rw [if_neg (by omega)] at hreleased
      simp only [hproduced, true_and, and_true, if_true] at this ⊢
      split <;> split <;> omega
    · rw [if_neg hj, add_zero] at this
      rw [this, if_neg fun hand => hj hand.2]
      exact hreleased
  case logged =>
    intro e he
    rw [h.logged e he, tally_cons, tally_cons, hprogress, progress]
  case skipped =>
    have hne : ∀ j, .executing j ≠ worker' := by
      rintro _ rfl
      simp [progress] at hprogress
    simpa [hne] using h.skipped
  case held => exact h.held
  case ordered => exact h.ordered
  case active => exact .inl ⟨_, mem_cons_self, hreturned⟩

theorem advance (h : Inv G dag params (worker :: workers) log)
    (hadvance : ParallelExecution.advance dag params worker =
      some (dag', params', events, worker')) :
    Inv G dag' params' (worker' :: workers) (log ++ events) := by
  cases worker with
  | waiting =>
    cases hqueue : dag.topLevel
    all_goals
      simp only [ParallelExecution.advance, waitPop, hqueue, some.injEq, Prod.mk.injEq] at hadvance
      obtain ⟨rfl, rfl, rfl, rfl⟩ := hadvance
    case nil => simpa using h.returned_of_waiting hqueue
    case cons => simpa using h.ready_of_waiting hqueue
  | ready =>
    simp only [ParallelExecution.advance] at hadvance
    split at hadvance
    next hid =>
      cases hadvance
      exact h.executing_of_ready hid
    next hid =>
      cases hadvance
      rw [append_nil]
      exact h.consuming_of_ready hid
  | executing =>
    cases hadvance
    exact h.consuming_of_executing
  | consuming id es nextId =>
    cases es with
    | nil =>
      cases hadvance
      exact h.next_of_consuming
    | cons produced es =>
      simp only [ParallelExecution.advance] at hadvance
      split at hadvance
      · rename_i hlast
        have hlast : (dag.vtxs produced).inDegree = 1 := hlast
        cases nextId with
        | none =>
          cases hadvance
          rw [append_nil]
          apply h.takeDown
          case hhand =>
            intro j
            simp [hand, hlast, count_cons, add_comm]
          all_goals simp [progress, rest]
        | some =>
          cases hadvance
          rw [append_nil]
          apply h.takeDown
          case hhand =>
            intro j
            simp only [hand, hlast, count_cons, count_nil, toList_some, true_and, beq_iff_eq]
            omega
          all_goals simp [progress, rest]
      · rename_i hlast
        have hlast : (dag.vtxs produced).inDegree ≠ 1 := hlast
        cases hadvance
        rw [append_nil]
        apply h.takeDown
        case hhand =>
          intro j
          simp [hand, hlast]
        all_goals simp [progress, rest]
  | pushing =>
    cases hadvance
    simpa using h.consuming_of_pushing
  | returned => cases hadvance

end Inv

variable {s : ParallelExecution} {schedule es : List Nat} {dag : DAG} {log : List ExecutionEvent}
  {id : Nat}

theorem inv_step {G s' w}
    (h : Inv G s.dag s.callParameters s.workers s.log) (hstep : s.step w = some s') :
    Inv G s'.dag s'.callParameters s'.workers s'.log := by
  obtain ⟨_, hworker, hstep⟩ := bind_eq_some_iff.mp hstep
  obtain ⟨⟨_, _, _, worker'⟩, hadvance, hstep⟩ := bind_eq_some_iff.mp hstep
  cases hstep
  obtain ⟨hlt, rfl⟩ := List.getElem?_eq_some_iff.mp hworker
  have h' := (h.perm (getElem_cons_eraseIdx_perm hlt).symm).advance hadvance
  exact h'.perm (set_perm_cons_eraseIdx hlt worker').symm

def conflictGraph {F : Type} [DecidableEq F] (txs : List (List F)) : ConflictGraph where
  size := txs.length
  edges := (init txs).edges
  given id := txs.getD id [] ≠ []
  forward := by simpa using (init_linked txs).1.forward

theorem inv_start {F : Type} [DecidableEq F] (txs : List (List F)) {workers : Nat}
    (hsmall : ∀ j, sharedEntries txs j < idRange) (hworkers : 0 < workers) :
    Inv (conflictGraph txs) (start txs workers).dag (start txs workers).callParameters
      (start txs workers).workers (start txs workers).log := by
  obtain ⟨hlinked, htop⟩ := init_linked txs
  have hbound := fun j => (hlinked.bound j).trans_lt (hsmall j)
  have hdegree := hlinked.counted
  simp only [DAG.Counted, mod_eq_of_lt (hbound _)] at hdegree
  have hwaiting : ∀ worker ∈ (start txs workers).workers, worker = .waiting :=
    fun worker => eq_of_mem_replicate
  constructor
  case outEdge => rfl
  case degree =>
    intro j
    have hcount := hdegree j
    rw [hlinked.totalVtxs] at hcount
    rw [tally_eq_zero hwaiting rfl]
    exact hcount
  case small =>
    intro j
    rw [start, hdegree]
    exact hbound j
  case bounded =>
    intro j hj
    rw [start, hdegree]
    refine Finset.sum_eq_zero fun i _ => count_eq_zero_of_not_mem fun hmem => ?_
    exact absurd (hlinked.forward i j hmem).2.2 (Nat.not_lt.mpr hj)
  case released =>
    intro j
    have hnodup : (start txs workers).dag.topLevel.Nodup := by
      rw [start, htop]
      exact nodup_range.filter _
    have hmem : j ∈ (start txs workers).dag.topLevel ↔
        j < txs.length ∧ ((init txs).vtxs j).inDegree = 0 := by
      rw [start, htop, mem_filter, mem_range, decide_eq_true_eq]
    rw [tally_eq_zero hwaiting rfl, hnodup.count]
    simp only [hmem]
    rfl
  case logged =>
    intro e _
    rw [tally_eq_zero hwaiting rfl]
    rfl
  case skipped =>
    intro j _
    exact ⟨not_mem_nil, fun hmem => Worker.noConfusion (hwaiting _ hmem)⟩
  case held => simp [start, conflictGraph]
  case ordered => exact throughout_nil
  case active =>
    refine .inl ⟨.waiting, mem_replicate.mpr ⟨?_, rfl⟩, by simp⟩
    omega

theorem inv_run {F : Type} [DecidableEq F] {txs : List (List F)} {workers}
    (hsmall : ∀ j, sharedEntries txs j < idRange) (hworkers : 0 < workers)
    (hrun : (start txs workers).run schedule = some s) :
    Inv (conflictGraph txs) s.dag s.callParameters s.workers s.log := by
  induction schedule using reverseRecOn generalizing s with
  | nil =>
    cases hrun
    exact inv_start txs hsmall hworkers
  | append_singleton _ _ ih =>
    rw [run, foldlM_append] at hrun
    obtain ⟨_, hs', hstep⟩ := bind_eq_some_iff.mp hrun
    simp only [foldlM_cons, foldlM_nil, bind_pure] at hstep
    exact inv_step (ih hs') hstep

/-! ## What a finished run has done -/

section Finished

variable {G : ConflictGraph} {s : ParallelExecution} {j : Nat}

section

variable (h : Inv G s.dag s.callParameters s.workers s.log) (hreturned : s.AllReturned)
  (hj : j < G.size)

include h hreturned hj

theorem Inv.consumed_of_allReturned : s.log.count (.consumed j) = 1 := by
  induction j using Nat.strong_induction_on with
  | h j ih =>
    have hqueue : s.dag.topLevel = [] := by
      rcases h.active with ⟨worker, hworker, hne⟩ | hqueue
      · exact absurd (hreturned worker hworker) hne
      · exact hqueue
    -- an edge into `j` comes from a smaller transaction, and those have finished
    have hdegree : (s.dag.vtxs j).inDegree = 0 := by
      rw [h.degree, tally_eq_zero hreturned rfl, add_zero]
      refine Finset.sum_eq_zero fun i _ => count_eq_zero_of_not_mem fun hmem => ?_
      rw [unfinished] at hmem
      split at hmem
      · exact not_mem_nil hmem
      · rename_i hnot
        obtain ⟨hgiven, hlt, -⟩ := G.forward i j hmem
        have hlogged := h.logged (.finish i) hgiven
        rw [ExecutionEvent.id, ih i hlt (by omega), count_eq_zero_of_not_mem hnot] at hlogged
        omega
    have hreleased := h.released j
    rw [hqueue, tally_eq_zero hreturned rfl, if_pos ⟨hj, hdegree⟩] at hreleased
    simpa using hreleased

theorem Inv.executed_once (hgiven : G.given j) :
    s.log.count (.start j) = 1 ∧ s.log.count (.finish j) = 1 := by
  have hconsumed := h.consumed_of_allReturned hreturned hj
  have hcount : ∀ e, e.id = j → s.log.count e = 1 := by
    intro e he
    rw [h.logged e (he ▸ hgiven), he, hconsumed, tally_eq_zero hreturned rfl]
  exact ⟨hcount _ rfl, hcount _ rfl⟩

end

end Finished

theorem finish_mem_of_start {F : Type} [DecidableEq F] {txs : List (List F)}
    (hlinked : Linked txs txs.length dag) (hordered : Throughout (Follows dag.edges) log) {c}
    {i j : Nat} (hij : i < j) (hi : c ∈ txs.getD i []) (hj : c ∈ txs.getD j [])
    (hjn : j < txs.length) {before after : List ExecutionEvent}
    (hlog : log = before ++ .start j :: after) : .finish i ∈ before := by
  induction j using Nat.strong_induction_on generalizing before after with
  | h j ih =>
    obtain ⟨h, hle, hlatest⟩ := exists_latestHolder hij hi
    have hedge := hlinked.linked j hjn c hj h hlatest
    have hfinish := hordered before _ after hlog h hedge
    rcases lt_or_eq_of_le hle with hlt | rfl
    · obtain ⟨before₁, between, hbefore⟩ := append_of_mem hfinish
      have hlog₁ : log = before₁ ++ .finish h :: (between ++ .start j :: after) := by
        rw [hlog, hbefore]
        simp
      have hstart := hordered before₁ _ _ hlog₁
      obtain ⟨before₂, between₂, hbefore₂⟩ := append_of_mem hstart
      have hlog₂ : log = before₂ ++
          .start h :: (between₂ ++ .finish h :: (between ++ .start j :: after)) := by
        rw [hlog₁, hbefore₂]
        simp
      have hmem := ih h hlatest.1 hlt hlatest.2.1 (by have := hlatest.1; omega) hlog₂
      rw [hbefore, hbefore₂]
      simp [hmem]
    · exact hfinish

/-- Every schedule of any positive number of workers in which all workers return executes each
transaction with critical fields once and no other, and conflicting ones in the order of the
block. -/
theorem executeUnit_respects_conflicts {F : Type} [DecidableEq F] (txs : List (List F))
    (workers : Nat) (schedule : List Nat) (s : ParallelExecution)
    (hsmall : ∀ j, sharedEntries txs j < idRange) (hworkers : 0 < workers)
    (hexecute : execute txs workers schedule = some s) (hreturned : s.AllReturned) :
    (∀ j < txs.length, txs.getD j [] ≠ [] →
        s.log.count (.start j) = 1 ∧ s.log.count (.finish j) = 1) ∧
      (∀ j, txs.getD j [] = [] → .start j ∉ s.log) ∧
      ∀ i j c, i < j → j < txs.length → c ∈ txs.getD i [] → c ∈ txs.getD j [] →
        ∃ before between after,
          s.log = before ++ .finish i :: between ++ .start j :: after := by
  have hrun : (start txs workers).run schedule = some s := by
    unfold execute at hexecute
    split at hexecute
    · exact hexecute
    · cases hexecute
  obtain ⟨hlinked, -⟩ := init_linked txs
  have hinv := inv_run hsmall hworkers hrun
  have honce : ∀ j < txs.length, txs.getD j [] ≠ [] →
      s.log.count (.start j) = 1 ∧ s.log.count (.finish j) = 1 :=
    fun j hj hne => hinv.executed_once hreturned hj (decide_eq_true hne)
  refine ⟨honce, fun j hj => (hinv.skipped j (by simpa [conflictGraph] using hj)).1, ?_⟩
  intro i j c hij hj hci hcj
  have hstart : .start j ∈ s.log := by
    rw [← count_pos_iff, (honce j hj (ne_nil_of_mem hcj)).1]
    exact one_pos
  obtain ⟨before, after, hlog⟩ := append_of_mem hstart
  have hfinish := finish_mem_of_start hlinked hinv.ordered hij hci hcj hj hlog
  obtain ⟨before, between, rfl⟩ := append_of_mem hfinish
  exact ⟨before, between, after, hlog⟩

/-- The last transaction conflicts with the first and the third, the second has no fields. -/
def fourTransactions : List (List String) := [["a"], [], ["b"], ["b", "a"]]

theorem executeUnit_respects_conflicts_two_workers :
    ∃ s, execute fourTransactions 2 (replicate 2 0 ++ replicate 9 1 ++ replicate 7 0) = some s ∧
      s.AllReturned ∧ s.log.count (.start 3) = 1 ∧ .start 1 ∉ s.log ∧
      ∃ before between after, s.log = before ++ .finish 0 :: between ++ .start 3 :: after := by
  have hrun : (execute fourTransactions 2 (replicate 2 0 ++ replicate 9 1 ++ replicate 7 0)).map
      (fun s => s.workers) = some [.returned, .returned] := by
    decide +kernel
  obtain ⟨s, hs, hworkers⟩ := map_eq_some_iff.mp hrun
  have hreturned : s.AllReturned := by
    rw [AllReturned, hworkers]
    decide
  have hsmall : ∀ j, sharedEntries fourTransactions j < idRange := by
    intro j
    refine countP_le_length.trans_lt ?_
    rcases j with _ | _ | _ | _ | j
    iterate 4 decide
    exact Nat.two_pow_pos 32
  obtain ⟨honce, hskipped, hordered⟩ :=
    executeUnit_respects_conflicts _ 2 _ s hsmall (by decide) hs hreturned
  exact ⟨s, hs, hreturned, (honce 3 (by decide) (by decide)).1, hskipped 1 rfl,
    hordered 0 3 "a" (by decide) (by decide) (by decide) (by decide)⟩

/-! ## A counter that wraps -/

/-- Two transactions with one field, which the second names `k` times. -/
def repeatedField (k : Nat) : List (List Unit) := [[()], replicate k ()]

theorem addEdges_replicate {latest} {dag : DAG} (k : Nat) (hdag : 0 < dag.totalVtxs)
    (hlatest : latest () = some 0) :
    (addEdges latest 1 dag (replicate k ())).edges 0 = dag.edges 0 ++ replicate k 1 := by
  induction k generalizing dag with
  | zero => simp [addEdges]
  | succ _ ih =>
    have hnext := @ih (dag.addEdge 0 1) (by simpa using hdag)
    have hedges : (dag.addEdge 0 1).edges 0 = dag.edges 0 ++ [1] := by
      rw [edges, addEdge_outEdge hdag, update_self]
      rfl
    rw [hedges] at hnext
    rw [replicate_succ, replicate_succ, append_cons, ← hnext]
    simp [addEdges, hlatest]

theorem repeatedField_edges (k : Nat) : (init (repeatedField k)).edges 0 = replicate k 1 :=
  addEdges_replicate k two_pos rfl

theorem repeatedField_init :
    (init (repeatedField idRange)).topLevel = [0, 1] ∧
      (init (repeatedField idRange)).edges 0 = replicate idRange 1 ∧
      (init (repeatedField idRange)).edges 1 = [] ∧
      ((init (repeatedField idRange)).vtxs 1).inDegree = 0 := by
  obtain ⟨hlinked, htop⟩ := init_linked (repeatedField idRange)
  have hedges := repeatedField_edges idRange
  have hlength : (repeatedField idRange).length = 2 := rfl
  have hnone : (init (repeatedField idRange)).edges 1 = [] := by
    apply eq_nil_iff_forall_not_mem.mpr
    intro j hj
    have := hlinked.forward 1 j hj
    omega
  have hdegree : ∀ j, ((init (repeatedField idRange)).vtxs j).inDegree = 0 := by
    intro j
    rw [hlinked.counted, hlinked.totalVtxs, hlength, incoming, Finset.sum_range_succ,
      Finset.sum_range_one, hedges, hnone, count_nil, add_zero, count_replicate]
    split
    · exact mod_self _
    · exact zero_mod _
  refine ⟨?_, hedges, hnone, hdegree 1⟩
  rw [htop, hlength]
  simp [hdegree, range_succ]

variable {params : Nat → Bool} {workers : List Worker}

theorem run_advance {w dag' params'} {worker worker' : Worker} {events result}
    (hw : workers[w]? = some worker)
    (h : advance dag params worker = some (dag', params', events, worker'))
    (hrun : run ⟨dag', params', workers.set w worker', log ++ events⟩ schedule = result) :
    run ⟨dag, params, workers, log⟩ (w :: schedule) = result := by
  simpa [run, step, hw, h] using hrun

theorem advance_waiting_nil (h : dag.topLevel = []) :
    advance dag params .waiting = some (dag, params, [], .returned) := by
  simp [advance, waitPop, h]

theorem advance_skip (h : ¬ params id) (hes : (dag.vtxs id).outEdge = es) :
    advance dag params (.ready id) =
      some (dag, params, [], .consuming id es none) := by
  rw [advance, if_neg h, hes]

theorem advance_executing (h : (dag.vtxs id).outEdge = es) :
    advance dag params (.executing id) =
      some (dag, params, [.finish id], .consuming id es none) := by
  rw [advance, h]

theorem run_takeDown (k : Nat) (hk : 0 < k) (hle : k ≤ idRange) (dag)
    (hdegree : (dag.vtxs 1).inDegree = k % idRange) (hedges : (dag.vtxs 1).outEdge = [])
    (params : Nat → Bool) (other : Worker) (log : List ExecutionEvent)
    (schedule : List Nat) :
    ∃ dag', dag'.topLevel = dag.topLevel ∧ (dag'.vtxs 1).outEdge = [] ∧
      run ⟨dag, params, [.consuming 0 (replicate k 1) none, other], log⟩
          (replicate k 0 ++ schedule) =
        run ⟨dag', params, [.consuming 0 [] (some 1), other], log⟩ schedule := by
  induction k generalizing dag with
  | zero => omega
  | succ k ih =>
    rw [replicate_succ, replicate_succ, cons_append]
    have hedges' : ((dag.fetchSub 1).2.vtxs 1).outEdge = [] := by
      simp [DAG.fetchSub, DAG.setInDegree, DAG.set, hedges]
    rcases Nat.eq_zero_or_pos k with rfl | hpos
    · refine ⟨(dag.fetchSub 1).2, rfl, hedges', ?_⟩
      refine run_advance rfl (if_pos hdegree) ?_
      rw [append_nil]
      rfl
    · have hlast : (dag.vtxs 1).inDegree ≠ 1 := by
        unfold idRange at *
        omega
      have hdegree' : ((dag.fetchSub 1).2.vtxs 1).inDegree = k % idRange := by
        simp only [DAG.fetchSub, DAG.setInDegree, DAG.set, update_self, hdegree]
        unfold idRange
        omega
      obtain ⟨dag', htop, hout, hrun⟩ := ih hpos (by omega) _ hdegree' hedges'
      refine ⟨dag', htop, hout, ?_⟩
      refine run_advance rfl (if_neg hlast) ?_
      rw [append_nil]
      exact hrun

/-- Worker `1` executes transaction `1` while worker `0` has popped transaction `0`. -/
theorem run_overtakes (dag) (params : Nat → Bool) (htop : dag.topLevel = [0, 1])
    (hedges₀ : dag.edges 0 = replicate idRange 1) (hedges₁ : dag.edges 1 = [])
    (hdegree : (dag.vtxs 1).inDegree = 0) (h₀ : params 0) (h₁ : params 1) :
    ∃ schedule s, run ⟨dag, params, [.waiting, .waiting], []⟩ schedule = some s ∧
      s.AllReturned ∧ s.log = [.start 1, .finish 1, .consumed 1, .start 0, .finish 0,
        .consumed 0, .consumed 1] := by
  obtain ⟨vtxs, _, totalVtxs, totalConsume⟩ := dag
  obtain rfl := htop
  obtain ⟨dag', htop', hedges', htakeDown⟩ := run_takeDown idRange (by decide) (le_refl _)
    ⟨vtxs, [], totalVtxs, (totalConsume + 1) % idRange⟩ (hdegree.trans (mod_self _).symm) hedges₁
    (update (update params 1 false) 0 false) .returned
    [.start 1, .finish 1, .consumed 1, .start 0, .finish 0] (replicate 4 0)
  refine ⟨0 :: 1 :: 1 :: 1 :: 1 :: 1 :: 0 :: 0 :: (replicate idRange 0 ++ replicate 4 0),
    ?s, ?run, ?_⟩
  case run =>
    refine run_advance rfl rfl ?_
    refine run_advance rfl rfl ?_
    refine run_advance rfl (if_pos h₁) ?_
    refine run_advance rfl (advance_executing hedges₁) ?_
    refine run_advance rfl rfl ?_
    refine run_advance rfl rfl ?_
    refine run_advance rfl (if_pos (by simpa using h₀)) ?_
    refine run_advance rfl (advance_executing hedges₀) ?_
    refine htakeDown.trans ?_
    refine run_advance rfl rfl ?_
    refine run_advance rfl (advance_skip (by simp) hedges') ?_
    refine run_advance rfl rfl ?_
    refine run_advance rfl (advance_waiting_nil htop') ?_
    rfl
  exact ⟨by simp [AllReturned], rfl⟩

/-- The second transaction names the field `2 ^ 32` times, and its `inDegree` wraps to zero.  It
is in the queue from the start, and it is executed before the first one has been started. -/
theorem executeUnit_overtakes_when_counter_wraps :
    ∃ schedule s, execute (repeatedField idRange) 2 schedule = some s ∧ s.AllReturned ∧
      s.log = [.start 1, .finish 1, .consumed 1, .start 0, .finish 0, .consumed 0,
        .consumed 1] := by
  obtain ⟨htop, hedges₀, hedges₁, hdegree⟩ := repeatedField_init
  have hgiven : (repeatedField idRange).getD 1 [] ≠ [] :=
    fun hnil : replicate idRange () = [] => absurd ((replicate_eq_nil_iff _).mp hnil) (by decide)
  obtain ⟨schedule, s, hrun, hs⟩ := run_overtakes _
    (fun id => (repeatedField idRange).getD id [] ≠ []) htop hedges₀ hedges₁ hdegree rfl
    (decide_eq_true hgiven)
  refine ⟨schedule, s, ?_, hs⟩
  have hlength : (repeatedField idRange).length < idRange := by decide
  rw [execute, if_pos hlength]
  exact hrun

end ParallelExecution

end Loki.Fisco
