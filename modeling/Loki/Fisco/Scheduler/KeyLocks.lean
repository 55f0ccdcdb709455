import Loki.Foundation.DepthFirst
import Loki.Foundation.History
import Mathlib.Algebra.BigOperators.Group.Finset.Basic

/-!
# Key locks

`GraphKeyLocks` of `bcos-scheduler/src/GraphKeyLocks.cpp`.  Owning and waiting are edges of one
graph: an edge from a key to a context says that the context owns the key, an edge from a
context to a key says that it waits for it.  Each edge has the `seq` of the call that made it,
and `releaseKeyLocks` removes the edges of one context with one `seq`.

Boost keeps the edges of a vertex in the order of addresses.  `EdgeOrder` is that order: any
order in which the search may meet the successors of a vertex.
-/

namespace Loki.Fisco

open Loki.Foundation List Search

inductive Vertex where
  | context (contextID : Int)
  | keyLock (contract key : String)
  deriving DecidableEq, Repr

structure Edge where
  source : Vertex
  target : Vertex
  seq : Int
  deriving DecidableEq, Repr

structure EdgeOrder where
  arrange : List Vertex → List Vertex
  mem_arrange : ∀ vs v, v ∈ arrange vs ↔ v ∈ vs

structure GraphKeyLocks where
  vertexes : List Vertex
  edges : List Edge
  deriving DecidableEq, Repr

namespace GraphKeyLocks

def empty : GraphKeyLocks where
  vertexes := []
  edges := []

inductive Call where
  | acquireKeyLock (contract key : String) (contextID seq : Int)
  | releaseKeyLocks (contextID seq : Int)
  deriving DecidableEq, Repr

variable (calls : List Call) (s : GraphKeyLocks) (v : Vertex) (contract key : String)
  (contextID : Int)

/-- `touchContext` and `touchKeyLock`. -/
def touch : GraphKeyLocks :=
  if v ∈ s.vertexes then s else { s with vertexes := v :: s.vertexes }

def addEdge (e : Edge) : GraphKeyLocks :=
  if e ∈ s.edges then s else { s with edges := e :: s.edges }

/-- `boost::remove_edge` with two vertices: all edges between them. -/
def removeEdges (source target : Vertex) : GraphKeyLocks :=
  { s with edges := s.edges.filter fun e => ¬ (e.source = source ∧ e.target = target) }

def acquireKeyLock (contextID seq : Int) : Bool × GraphKeyLocks :=
  let keyVertex := .keyLock contract key
  let contextVertex := .context contextID
  let s := (s.touch keyVertex).touch contextVertex
  if s.edges.any fun e => e.source = keyVertex ∧ e.target ≠ contextVertex then
    (false, s.addEdge ⟨contextVertex, keyVertex, seq⟩)
  else
    (true, (s.removeEdges contextVertex keyVertex).addEdge ⟨keyVertex, contextVertex, seq⟩)

def isKeyHeldByOther (contract : String) (excludeContextID : Int) (e : Edge) : Option String :=
  match e.source, e.target with
  | .keyLock contract' key, .context contextID =>
    if contextID ≠ excludeContextID ∧ contract' = contract then some key else none
  | _, _ => none

/-- The keys come out of a `std::set`: each once, in order. -/
def getKeyLocksNotHoldingByContext (excludeContextID : Int) : List String :=
  (s.edges.filterMap (isKeyHeldByOther contract excludeContextID)).dedup.mergeSort

def releaseKeyLocks (contextID seq : Int) : GraphKeyLocks :=
  let vertex := .context contextID
  let s := s.touch vertex
  let clearedIn := s.edges.all fun e => e.target = vertex → e.seq = seq
  let clearedOut := s.edges.all fun e => e.source = vertex → e.seq = seq
  let edges := s.edges.filter fun e => ¬ (e.seq = seq ∧ (e.target = vertex ∨ e.source = vertex))
  if clearedIn && clearedOut then
    { vertexes := s.vertexes.erase vertex, edges := edges }
  else { s with edges := edges }

def outVertexes : List Vertex := (s.edges.filter fun e => e.source = v).map Edge.target

def inDegree : Nat := s.edges.countP fun e => e.target = v

def detectDeadLock (order : EdgeOrder) (s : GraphKeyLocks) (contextID : Int) : Bool :=
  let vertex := .context contextID
  if vertex ∉ s.vertexes then false
  else if s.inDegree vertex = 0 then false
  else (visit (fun v => order.arrange (s.outVertexes v)) s.vertexes.length vertex
    .empty).backEdge

def step : Call → GraphKeyLocks
  | .acquireKeyLock contract key contextID seq => (s.acquireKeyLock contract key contextID seq).2
  | .releaseKeyLocks contextID seq => s.releaseKeyLocks contextID seq

def run : GraphKeyLocks := calls.foldl step empty

/-! ## Owning and waiting -/

def Owns : Prop := ∃ seq, ⟨.keyLock contract key, .context contextID, seq⟩ ∈ s.edges

def Waits : Prop := ∃ seq, ⟨.context contextID, .keyLock contract key, seq⟩ ∈ s.edges

/-- What the loop of `acquireKeyLock` looks for is not there. -/
def Available : Prop :=
  ∀ e ∈ s.edges, e.source = .keyLock contract key → e.target = .context contextID

instance (s : GraphKeyLocks) (contract key : String) (contextID : Int) :
    Decidable (s.Available contract key contextID) :=
  inferInstanceAs (Decidable (∀ e ∈ s.edges, _ → _))

section Effects

variable {s : GraphKeyLocks} {contract key : String} {contextID seq : Int} {e : Edge}
  {v w : Vertex}

@[simp] theorem touch_edges : (s.touch v).edges = s.edges := by
  unfold touch
  split <;> rfl

@[simp] theorem mem_touch_vertexes : w ∈ (s.touch v).vertexes ↔ w ∈ s.vertexes ∨ w = v := by
  unfold touch
  split
  · constructor
    · exact .inl
    · rintro (h | rfl) <;> assumption
  · simp [or_comm]

@[simp] theorem mem_addEdge_edges {e'} : e ∈ (s.addEdge e').edges ↔ e ∈ s.edges ∨ e = e' := by
  unfold addEdge
  split
  · constructor
    · exact .inl
    · rintro (h | rfl) <;> assumption
  · simp [or_comm]

@[simp] theorem addEdge_vertexes : (s.addEdge e).vertexes = s.vertexes := by
  unfold addEdge
  split <;> rfl

theorem acquireKeyLock_eq (s : GraphKeyLocks) (contract key : String) (contextID seq : Int) :
    s.acquireKeyLock contract key contextID seq =
      let s' := (s.touch (.keyLock contract key)).touch (.context contextID)
      if s.Available contract key contextID then
        (true, (s'.removeEdges (.context contextID) (.keyLock contract key)).addEdge
          ⟨.keyLock contract key, .context contextID, seq⟩)
      else (false, s'.addEdge ⟨.context contextID, .keyLock contract key, seq⟩) := by
  have hany : (((s.touch (.keyLock contract key)).touch (.context contextID)).edges.any fun e =>
      e.source = .keyLock contract key ∧ e.target ≠ .context contextID) = true ↔
      ¬ s.Available contract key contextID := by
    simp [Available]
  unfold acquireKeyLock
  by_cases h : s.Available contract key contextID
  · rw [if_neg (mt hany.mp (not_not.mpr h)), if_pos h]
  · rw [if_pos (hany.mpr h), if_neg h]

theorem acquireKeyLock_fst :
    (s.acquireKeyLock contract key contextID seq).1 = true ↔
      s.Available contract key contextID := by
  rw [acquireKeyLock_eq]
  by_cases h : s.Available contract key contextID <;> simp [h]

theorem mem_acquireKeyLock_vertexes :
    v ∈ (s.acquireKeyLock contract key contextID seq).2.vertexes ↔
      v ∈ s.vertexes ∨ v = .keyLock contract key ∨ v = .context contextID := by
  rw [acquireKeyLock_eq]
  by_cases h : s.Available contract key contextID <;> simp [h, removeEdges, or_assoc]

theorem mem_acquireKeyLock_edges :
    e ∈ (s.acquireKeyLock contract key contextID seq).2.edges ↔
      if s.Available contract key contextID then
        (e ∈ s.edges ∧ ¬ (e.source = .context contextID ∧ e.target = .keyLock contract key)) ∨
          e = ⟨.keyLock contract key, .context contextID, seq⟩
      else e ∈ s.edges ∨ e = ⟨.context contextID, .keyLock contract key, seq⟩ := by
  rw [acquireKeyLock_eq]
  by_cases h : s.Available contract key contextID <;>
    simp [h, removeEdges, imp_iff_not_or]

theorem mem_releaseKeyLocks_edges :
    e ∈ (s.releaseKeyLocks contextID seq).edges ↔
      e ∈ s.edges ∧
        ¬ (e.seq = seq ∧ (e.target = .context contextID ∨ e.source = .context contextID)) := by
  unfold releaseKeyLocks
  dsimp only
  split <;> simp [imp_iff_not_or]

theorem target_mem_releaseKeyLocks_vertexes (hv : e.target ∈ s.vertexes)
    (he : e ∈ (s.releaseKeyLocks contextID seq).edges) :
    e.target ∈ (s.releaseKeyLocks contextID seq).vertexes := by
  rw [mem_releaseKeyLocks_edges] at he
  unfold releaseKeyLocks
  dsimp only
  split
  · rename_i hcleared
    simp only [touch_edges, Bool.and_eq_true, all_eq_true, decide_eq_true_eq] at hcleared
    have hne : e.target ≠ .context contextID := fun htarget =>
      he.2 ⟨hcleared.1 e he.1 htarget, .inl htarget⟩
    exact (mem_erase_of_ne hne).mpr (mem_touch_vertexes.mpr (.inl hv))
  · exact mem_touch_vertexes.mpr (.inl hv)

end Effects

/-! ## The invariant of the graph -/

structure WellFormed (s : GraphKeyLocks) : Prop where
  bipartite : ∀ e ∈ s.edges,
    (∃ contract key contextID, e.source = .keyLock contract key ∧ e.target = .context contextID) ∨
      ∃ contract key contextID, e.source = .context contextID ∧ e.target = .keyLock contract key
  target_mem : ∀ e ∈ s.edges, e.target ∈ s.vertexes
  exclusive : ∀ contract key c c', s.Owns contract key c → s.Owns contract key c' → c = c'

namespace WellFormed

variable {s : GraphKeyLocks}

theorem available_iff (h : s.WellFormed) (contract key : String) (contextID : Int) :
    s.Available contract key contextID ↔
      (¬ ∃ c, s.Owns contract key c) ∨ s.Owns contract key contextID := by
  constructor
  · intro havailable
    by_cases howned : ∃ c, s.Owns contract key c
    · obtain ⟨c, seq, he⟩ := howned
      have hc : Vertex.context c = .context contextID := havailable _ he rfl
      rw [hc] at he
      exact .inr ⟨seq, he⟩
    · exact .inl howned
  · rintro hfree e he hsource
    obtain ⟨_, _, seq⟩ := e
    rcases h.bipartite _ he with ⟨_, _, c, _, ht⟩ | ⟨_, _, _, _, -⟩
    · simp only at hsource ht
      subst hsource ht
      rcases hfree with hfree | howns
      · exact absurd ⟨c, seq, he⟩ hfree
      · rw [h.exclusive contract key c contextID ⟨seq, he⟩ howns]
    · simp_all

protected theorem empty : WellFormed empty := by constructor <;> simp [GraphKeyLocks.empty, Owns]

protected theorem acquireKeyLock (h : s.WellFormed) (contract key : String)
    (contextID seq : Int) : (s.acquireKeyLock contract key contextID seq).2.WellFormed := by
  have hedge : ∀ {e}, e ∈ (s.acquireKeyLock contract key contextID seq).2.edges →
      e ∈ s.edges ∨ e = ⟨.keyLock contract key, .context contextID, seq⟩ ∧
          s.Available contract key contextID ∨
        e = ⟨.context contextID, .keyLock contract key, seq⟩ := by
    intro e he
    rw [mem_acquireKeyLock_edges] at he
    split at he
    next havailable => exact he.imp And.left fun heq => .inl ⟨heq, havailable⟩
    next => exact he.imp_right .inr
  constructor
  case bipartite =>
    intro e he
    rcases hedge he with he | ⟨rfl, -⟩ | rfl
    · exact h.bipartite e he
    · exact .inl ⟨_, _, _, rfl, rfl⟩
    · exact .inr ⟨_, _, _, rfl, rfl⟩
  case target_mem =>
    intro e he
    rw [mem_acquireKeyLock_vertexes]
    rcases hedge he with he | ⟨rfl, -⟩ | rfl
    · exact .inl (h.target_mem e he)
    · exact .inr (.inr rfl)
    · exact .inr (.inl rfl)
  case exclusive =>
    -- an own edge is old, or it is the new one and all own edges of its key are the context's
    have howns : ∀ {contract' key' c}, (s.acquireKeyLock contract key contextID seq).2.Owns
        contract' key' c → s.Owns contract' key' c ∨
          contract' = contract ∧ key' = key ∧ c = contextID ∧
            s.Available contract key contextID := by
      rintro contract' key' c ⟨seq', he⟩
      rcases hedge he with he | ⟨heq, havailable⟩ | heq
      · exact .inl ⟨seq', he⟩
      · cases heq
        exact .inr ⟨rfl, rfl, rfl, havailable⟩
      · cases heq
    have hsame : ∀ {c}, s.Available contract key contextID → s.Owns contract key c →
        c = contextID := by
      rintro c havailable ⟨_, he⟩
      simpa using havailable _ he rfl
    intro contract' key' c c' h₁ h₂
    rcases howns h₁ with hold₁ | ⟨rfl, rfl, rfl, havailable⟩
    · rcases howns h₂ with hold₂ | ⟨rfl, rfl, rfl, havailable⟩
      · exact h.exclusive contract' key' c c' hold₁ hold₂
      · exact hsame havailable hold₁
    · rcases howns h₂ with hold₂ | ⟨-, -, rfl, -⟩
      · exact (hsame havailable hold₂).symm
      · rfl

protected theorem releaseKeyLocks (h : s.WellFormed) (contextID seq : Int) :
    (s.releaseKeyLocks contextID seq).WellFormed := by
  have hold : ∀ {e}, e ∈ (s.releaseKeyLocks contextID seq).edges → e ∈ s.edges := fun he =>
    (mem_releaseKeyLocks_edges.mp he).1
  constructor
  case bipartite => exact fun e he => h.bipartite e (hold he)
  case target_mem =>
    exact fun e he => target_mem_releaseKeyLocks_vertexes (h.target_mem e (hold he)) he
  case exclusive =>
    rintro contract key c c' ⟨seq₁, h₁⟩ ⟨seq₂, h₂⟩
    exact h.exclusive contract key c c' ⟨seq₁, hold h₁⟩ ⟨seq₂, hold h₂⟩

protected theorem run : (run calls).WellFormed := by
  induction calls using reverseRecOn with
  | nil => exact .empty
  | append_singleton _ call ih =>
    rw [GraphKeyLocks.run, foldl_append]
    cases call with
    | acquireKeyLock => exact ih.acquireKeyLock ..
    | releaseKeyLocks => exact ih.releaseKeyLocks ..

end WellFormed

/-! ## The history of a lock -/

/-- Some `acquireKeyLock` of the context succeeded, with a `seq` that was not released since. -/
def Acquired : Prop :=
  ∃ seq, Since
    (fun before call => call = .acquireKeyLock contract key contextID seq ∧
      ((run before).acquireKeyLock contract key contextID seq).1 = true)
    (fun _ call => call = .releaseKeyLocks contextID seq) calls

/-- Some `acquireKeyLock` of the context failed, with a `seq` that was not released since, and
none succeeded since. -/
def Refused : Prop :=
  ∃ seq, Since
    (fun before call => call = .acquireKeyLock contract key contextID seq ∧
      ((run before).acquireKeyLock contract key contextID seq).1 = false)
    (fun before call => call = .releaseKeyLocks contextID seq ∨
      ∃ seq', call = .acquireKeyLock contract key contextID seq' ∧
        ((run before).acquireKeyLock contract key contextID seq').1 = true) calls

theorem run_concat (call : Call) : run (calls ++ [call]) = (run calls).step call := by simp [run]

theorem owns_iff_acquired :
    (run calls).Owns contract key contextID ↔ Acquired calls contract key contextID := by
  refine exists_congr fun seq => ?_
  induction calls using reverseRecOn with
  | nil => simp [run, empty, not_since_nil]
  | append_singleton _ call ih =>
    rw [since_concat, ← ih, run_concat]
    cases call with
    | acquireKeyLock =>
      simp only [step, mem_acquireKeyLock_edges, acquireKeyLock_fst, reduceCtorEq,
        not_false_eq_true, and_true]
      split <;> grind
    | releaseKeyLocks =>
      simp only [step, mem_releaseKeyLocks_edges]
      grind

theorem waits_iff_refused :
    (run calls).Waits contract key contextID ↔ Refused calls contract key contextID := by
  refine exists_congr fun seq => ?_
  induction calls using reverseRecOn with
  | nil => simp [run, empty, not_since_nil]
  | append_singleton _ call ih =>
    rw [since_concat, ← ih, run_concat]
    cases call with
    | acquireKeyLock =>
      simp only [step, mem_acquireKeyLock_edges, acquireKeyLock_fst, Bool.eq_false_iff, ne_eq]
      split <;> grind
    | releaseKeyLocks =>
      simp only [step, mem_releaseKeyLocks_edges]
      grind

/-! ## The keys of other contexts, and deadlocks -/

section Queries

variable {s : GraphKeyLocks} {contract key : String} {excludeContextID contextID : Int}

theorem isKeyHeldByOther_eq_some {e} :
    isKeyHeldByOther contract excludeContextID e = some key ↔
      ∃ c, c ≠ excludeContextID ∧ e.source = .keyLock contract key ∧ e.target = .context c := by
  unfold isKeyHeldByOther
  split <;> grind

theorem mem_getKeyLocksNotHoldingByContext :
    key ∈ s.getKeyLocksNotHoldingByContext contract excludeContextID ↔
      ∃ c, c ≠ excludeContextID ∧ s.Owns contract key c := by
  simp only [getKeyLocksNotHoldingByContext, mem_mergeSort, mem_dedup,
    mem_filterMap, isKeyHeldByOther_eq_some]
  constructor
  · rintro ⟨⟨_, _, seq⟩, he, c, hc, rfl, rfl⟩
    exact ⟨c, hc, seq, he⟩
  · rintro ⟨c, hc, _, he⟩
    exact ⟨_, he, c, hc, rfl, rfl⟩

theorem nodup_getKeyLocksNotHoldingByContext (s : GraphKeyLocks) (contract : String)
    (excludeContextID : Int) : (s.getKeyLocksNotHoldingByContext contract excludeContextID).Nodup :=
  (mergeSort_perm _ _).nodup_iff.mpr (nodup_dedup _)

theorem mem_outVertexes {v w} : w ∈ s.outVertexes v ↔ ∃ seq, ⟨v, w, seq⟩ ∈ s.edges := by
  simp only [outVertexes, mem_map, mem_filter, decide_eq_true_eq]
  constructor
  · rintro ⟨⟨_, _, seq⟩, ⟨he, rfl⟩, rfl⟩
    exact ⟨seq, he⟩
  · rintro ⟨_, he⟩
    exact ⟨_, ⟨he, rfl⟩, rfl⟩

section

variable (h : s.WellFormed) (order : EdgeOrder)

include h

theorem WellFormed.detectDeadLock_eq (howns : s.Owns contract key contextID) :
    .context contextID ∈ s.vertexes ∧
      s.detectDeadLock order contextID =
        (visit (fun v => order.arrange (s.outVertexes v)) s.vertexes.length
          (.context contextID) .empty).backEdge := by
  obtain ⟨_, he⟩ := howns
  have hmem : .context contextID ∈ s.vertexes := h.target_mem _ he
  have hdegree : s.inDegree (.context contextID) ≠ 0 := by
    rw [inDegree, ← Nat.pos_iff_ne_zero, countP_pos_iff]
    exact ⟨_, he, by simp⟩
  simp [detectDeadLock, hmem, hdegree]

theorem WellFormed.outVertexes_subset (v : Vertex) :
    order.arrange (s.outVertexes v) ⊆ s.vertexes := by
  intro w hw
  obtain ⟨_, he⟩ := mem_outVertexes.mp ((order.mem_arrange _ _).mp hw)
  exact h.target_mem _ he

theorem WellFormed.detectDeadLock_iff (howns : s.Owns contract key contextID) :
    s.detectDeadLock order contextID = true ↔
      ReachesCycle (fun v => order.arrange (s.outVertexes v)) (.context contextID) := by
  obtain ⟨hmem, heq⟩ := h.detectDeadLock_eq order howns
  rw [heq]
  exact visit_backEdge_iff (fun v _ => h.outVertexes_subset order v) hmem

end

def Held (s : GraphKeyLocks) : Vertex → Prop
  | .context contextID => ∃ contract key, s.Owns contract key contextID
  | .keyLock contract key => ∃ contextID, s.Owns contract key contextID

theorem WellFormed.detectDeadLock_of_waits (h : s.WellFormed) (order : EdgeOrder)
    (hwaits : ∀ contract key c, s.Owns contract key c → ∃ contract' key' c', c' ≠ c ∧
      s.Waits contract' key' c ∧ s.Owns contract' key' c') (howns : s.Owns contract key contextID) :
    s.detectDeadLock order contextID = true := by
  obtain ⟨hmem, heq⟩ := h.detectDeadLock_eq order howns
  have hheld : s.Held (.context contextID) := ⟨contract, key, howns⟩
  rw [heq]
  apply visit_backEdge_of_endless (fun v _ => h.outVertexes_subset order v) _ hmem hheld
  intro v hv
  simp only [order.mem_arrange, mem_outVertexes]
  cases v with
  | context c =>
    obtain ⟨contract', key', howns'⟩ := hv
    obtain ⟨contract'', key'', c', -, hwait, howner⟩ := hwaits contract' key' c howns'
    exact ⟨.keyLock contract'' key'', hwait, c', howner⟩
  | keyLock contract' key' =>
    obtain ⟨c, howns'⟩ := hv
    exact ⟨.context c, howns', contract', key', howns'⟩

end Queries

/-- After every list of calls, and for every order of the edges. -/
theorem keyLocks_exclusive_and_deadLock_detected (order : EdgeOrder) (calls : List Call) :
    (∀ contract key c c', (run calls).Owns contract key c → (run calls).Owns contract key c' →
      c = c') ∧
    (∀ contract key c seq, ((run calls).acquireKeyLock contract key c seq).1 = true ↔
      (¬ ∃ c', (run calls).Owns contract key c') ∨ (run calls).Owns contract key c) ∧
    (∀ contract key c, (run calls).Owns contract key c ↔ Acquired calls contract key c) ∧
    (∀ contract key c, (run calls).Waits contract key c ↔ Refused calls contract key c) ∧
    (∀ contract c, ((run calls).getKeyLocksNotHoldingByContext contract c).Nodup ∧
      ∀ key, key ∈ (run calls).getKeyLocksNotHoldingByContext contract c ↔
        ∃ c', c' ≠ c ∧ (run calls).Owns contract key c') ∧
    ((∃ contract key c, (run calls).Owns contract key c) →
      (∀ contract key c, (run calls).Owns contract key c → ∃ contract' key' c', c' ≠ c ∧
        (run calls).Waits contract' key' c ∧ (run calls).Owns contract' key' c') →
      ∃ c, (run calls).detectDeadLock order c = true) := by
  have h := WellFormed.run calls
  refine ⟨h.exclusive, ?_, owns_iff_acquired calls, waits_iff_refused calls, ?_, ?_⟩
  · intro contract key c seq
    rw [acquireKeyLock_fst, h.available_iff]
  · intro contract c
    exact ⟨nodup_getKeyLocksNotHoldingByContext .., fun _ => mem_getKeyLocksNotHoldingByContext⟩
  · rintro ⟨_, _, c, howns⟩ hwaits
    exact ⟨c, h.detectDeadLock_of_waits order hwaits howns⟩

example :
    (run [.acquireKeyLock "contract1" "key1" 1000 1, .acquireKeyLock "contract1" "key2" 1001 1,
        .acquireKeyLock "contract1" "key2" 1000 2]).detectDeadLock ⟨id, by simp⟩ 1000 = false ∧
      (run [.acquireKeyLock "contract1" "key1" 1000 1, .acquireKeyLock "contract1" "key2" 1001 1,
        .acquireKeyLock "contract1" "key2" 1000 2, .acquireKeyLock "contract1" "key1" 1001 2]
        ).detectDeadLock ⟨id, by simp⟩ 1000 = true := by
  decide

/-! ## Who is reverted -/

/-- The deadlock branch of `BlockExecutive::checkBatch`, over the context and `skip` of the states
of each contract.  A state with `skip` ends the visit of its contract, and the first context found
is turned into `REVERT_KEY_LOCK`. -/
def checkBatch (order : EdgeOrder) (states : List (List (Int × Bool))) : Option (Int × Bool) :=
  (states.flatMap (·.takeWhile (!·.2))).find? fun state => s.detectDeadLock order state.1

/-- The context lies on a cycle of the wait-for graph. -/
def Deadlocked : Prop :=
  Relation.TransGen (fun v w => w ∈ s.outVertexes v) (.context contextID) (.context contextID)

theorem WellFormed.detectDeadLock_iff_owns {s : GraphKeyLocks} (h : s.WellFormed) (order c) :
    s.detectDeadLock order c = true ↔ (∃ contract key, s.Owns contract key c) ∧
      ReachesCycle s.outVertexes (.context c) := by
  by_cases howned : ∃ contract key, s.Owns contract key c
  · obtain ⟨contract, key, howns⟩ := id howned
    rw [h.detectDeadLock_iff order howns, and_iff_right howned]
    simp only [ReachesCycle, order.mem_arrange]
  · -- only own edges end in a context, so the degree test answers
    have hdegree : s.inDegree (.context c) = 0 := by
      rw [inDegree, countP_eq_zero]
      rintro ⟨_, _, seq⟩ he _
      rcases h.bipartite _ he with ⟨contract, key, _, rfl, -⟩ | ⟨_, _, _, -, _⟩
      · exact howned ⟨contract, key, seq, by simp_all⟩
      · simp_all
    simp [detectDeadLock, hdegree, howned]

theorem reverted_deadlocked_iff (order : EdgeOrder) (calls : List Call) : let s := run calls
    ((∀ c, s.detectDeadLock order c = true → s.Deadlocked c) ∧
      ∀ states c skip, s.checkBatch order states = some (c, skip) → s.Deadlocked c) ↔
    ∀ contract key c, s.Owns contract key c → ReachesCycle s.outVertexes (.context c) →
      s.Deadlocked c := by
  intro s
  have hdetect := (WellFormed.run calls).detectDeadLock_iff_owns order
  constructor
  · intro hprecise contract key c howns hcycle
    exact hprecise.1 c ((hdetect c).mpr ⟨⟨contract, key, howns⟩, hcycle⟩)
  · intro hclosed
    have hprecise c (hc : s.detectDeadLock order c = true) : s.Deadlocked c := by
      obtain ⟨⟨contract, key, howns⟩, hcycle⟩ := (hdetect c).mp hc
      exact hclosed contract key c howns hcycle
    refine ⟨hprecise, fun states c skip hc => hprecise c ?_⟩
    simpa using find?_some (a := (c, skip)) hc

/-- Contexts 1 and 2 wait for each other; 3 waits for 1 and is reverted. -/
theorem waiting_context_reverted :
    let s := run [.acquireKeyLock "c" "k1" 1 0, .acquireKeyLock "c" "k2" 2 0,
      .acquireKeyLock "c" "k3" 3 0, .acquireKeyLock "c" "k2" 1 0, .acquireKeyLock "c" "k1" 2 0,
      .acquireKeyLock "c" "k1" 3 0]
    s.checkBatch ⟨id, by simp⟩ [[(3, false)], [(1, false), (2, false)]] = some (3, false) ∧
      s.detectDeadLock ⟨id, by simp⟩ 3 = true ∧ ¬ s.Deadlocked 3 := by
  intro s
  refine ⟨by decide, by decide, fun hcycle => ?_⟩
  have hheld : ∀ e ∈ s.edges, e.target = .context 3 → e.source = .keyLock "c" "k3" := by decide
  have hunwanted : ∀ e ∈ s.edges, e.target ≠ .keyLock "c" "k3" := by decide
  obtain ⟨v, hreach, hv⟩ := Relation.TransGen.tail'_iff.mp hcycle
  obtain ⟨_, he⟩ := mem_outVertexes.mp hv
  obtain rfl : v = .keyLock "c" "k3" := hheld _ he rfl
  rcases hreach.cases_tail with hv | ⟨w, -, hw⟩
  · cases hv
  · obtain ⟨_, he'⟩ := mem_outVertexes.mp hw
    exact hunwanted _ he' rfl

/-! ## Locks of one transaction -/

inductive MessageType where
  | txHash | message | keyLock | sendBack | finished | revert | revertKeyLock
  deriving DecidableEq

/-- What the locks depend on. -/
structure ExecutionMessage where
  type : MessageType
  (sender recipient keyLockAcquired : String)
  keyLocks : List String
  (contextID seq : Int)

/-- `startBatch` for the `i`th state: the locks dispatched with its message, unless it waits. -/
def startBatch (i : Nat) (m : ExecutionMessage) : Option (List String) × GraphKeyLocks :=
  let (ready, s) :=
    if m.type = .keyLock then s.acquireKeyLock m.sender m.keyLockAcquired i m.seq else (true, s)
  (if ready then some (s.getKeyLocksNotHoldingByContext m.recipient i) else none, s)

/-- The branch of `checkBatch` without deadlock, for one response. -/
def processKeyLocks (m : ExecutionMessage) : GraphKeyLocks :=
  match m.type with
  | .message | .keyLock =>
    m.keyLocks.foldl (fun s key => (s.acquireKeyLock m.sender key m.contextID m.seq).2) s
  | .finished | .revert => s.releaseKeyLocks m.contextID m.seq
  | _ => s

section Batches

-- the message of the `i`th state is sent as `i + startContextID`
variable (startContextID : Int) (answers : Int → Int → Prop)

/-- Batches in any order; the response to the `i`th state carries an id that `answers` allows. -/
inductive Batches : GraphKeyLocks → Prop
  | empty : Batches empty
  | startBatch {g} (h : Batches g) (i m) : Batches (g.startBatch i m).2
  | checkBatch {g} (h : Batches g) (i : Nat) (m) (id : answers (i + startContextID) m.contextID) :
      Batches (g.processKeyLocks m)

theorem Batches.wellFormed {s} (h : Batches startContextID answers s) : s.WellFormed := by
  induction h with
  | empty => exact .empty
  | startBatch _ i m ih =>
    unfold GraphKeyLocks.startBatch
    split_ifs
    · exact ih.acquireKeyLock ..
    · exact ih
  | checkBatch _ i m _ ih =>
    unfold processKeyLocks
    split
    iterate 2 exact foldlRecOn _ _ ih fun _ h _ _ => h.acquireKeyLock ..
    iterate 2 exact ih.releaseKeyLocks ..
    exact ih

/-- The `i`th transaction holds the key, under its own id or one of its responses'. -/
def Holds (i : Nat) : Prop :=
  ∃ c : Int, (c = i ∨ answers (i + startContextID) c) ∧ s.Owns contract key c

theorem never_blocks_on_itself_iff :
    (∀ s, Batches startContextID answers s → ∀ i m,
      (∀ keys ∈ (s.startBatch i m).1, ∀ key ∈ keys,
        ¬ (s.startBatch i m).2.Holds m.recipient key startContextID answers i) ∧
      ((s.startBatch i m).1 = none →
        ¬ s.Holds m.sender m.keyLockAcquired startContextID answers i)) ↔
    ∀ i : Nat, ∀ c, answers (i + startContextID) c → c = i := by
  constructor
  · intro h i c hc
    by_contra hne
    let m : ExecutionMessage := ⟨.message, "a", "a", "", ["k"], c, 0⟩
    have howns : (empty.processKeyLocks m).Owns "a" "k" c :=
      ⟨0, mem_acquireKeyLock_edges.mpr <| by simp [m, Available, empty]⟩
    apply (h _ (.checkBatch (.startBatch .empty i m) i m hc) i m).1 _ rfl "k"
    · exact mem_getKeyLocksNotHoldingByContext.mpr ⟨c, hne, howns⟩
    · exact ⟨c, .inr hc, howns⟩
  · intro hid s h i m
    have hholds {s : GraphKeyLocks} {contract key}
        (hk : s.Holds contract key startContextID answers i) : s.Owns contract key i := by
      obtain ⟨c, rfl | hc, howns⟩ := hk
      · exact howns
      · exact hid i c hc ▸ howns
    constructor
    · intro keys hkeys key hkey hk
      have hwf := (h.startBatch i m).wellFormed
      simp only [startBatch, Option.mem_def, Option.ite_none_right_eq_some, Option.some.injEq]
        at hkeys
      rw [← hkeys.2] at hkey
      obtain ⟨c, hc, howns⟩ := mem_getKeyLocksNotHoldingByContext.mp hkey
      exact hc (hwf.exclusive _ _ _ _ howns (hholds hk))
    · intro hwaits hk
      have hready : (s.acquireKeyLock m.sender m.keyLockAcquired i m.seq).1 = true :=
        acquireKeyLock_fst.mpr ((h.wellFormed.available_iff ..).mpr (.inr (hholds hk)))
      unfold startBatch at hwaits
      split_ifs at hwaits <;> simp_all

end Batches

/-- A `call` that does not start at 0, to a contract that calls itself. -/
theorem call_blocks_on_itself :
    let m : ExecutionMessage := ⟨.message, "a", "a", "", ["k"], 5, 0⟩
    let s := (empty.startBatch 0 m).2.processKeyLocks m
    Batches 5 Eq s ∧ (∃ keys ∈ (s.startBatch 0 m).1, "k" ∈ keys) ∧ s.Owns "a" "k" 5 ∧
      (s.startBatch 0 { m with type := .keyLock, keyLockAcquired := "k" }).1 = none := by
  intro m s
  have howns : s.Owns "a" "k" 5 := ⟨0, by decide⟩
  exact ⟨.checkBatch (.startBatch .empty 0 m) 0 m rfl,
    ⟨_, rfl, mem_getKeyLocksNotHoldingByContext.mpr ⟨5, by decide, howns⟩⟩, howns, rfl⟩

end GraphKeyLocks

end Loki.Fisco
