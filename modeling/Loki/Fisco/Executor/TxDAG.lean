import Mathlib.Algebra.BigOperators.Group.Finset.Basic
import Mathlib.Algebra.Order.Ring.Nat
import Mathlib.Algebra.Order.BigOperators.Group.Finset

/-!
# The conflict graph of a block

`TxDAG::init` of `bcos-executor/src/dag/TxDAG.cpp` and the graph of `dag/DAG.cpp`.  A
transaction gets an edge from the latest earlier transaction that has one of its critical
fields, one edge for each entry of its vector.  `inDegree` is a counter of 32 bits.

The first part is the model.  The second says which edges there are: they go forward, they
link the consecutive holders of a field, and `inDegree` counts them modulo `2 ^ 32`.
-/

namespace Loki.Fisco

open Finset Function Option

variable {F : Type}

def idRange : Nat := 2 ^ 32

structure DAG.Vertex where
  inDegree : Nat
  outEdge : List Nat
  deriving DecidableEq, Repr

structure DAG where
  vtxs : Nat → DAG.Vertex
  topLevel : List Nat
  totalVtxs : Nat
  totalConsume : Nat

namespace DAG

def init (maxSize : Nat) : DAG where
  vtxs _ := ⟨0, []⟩
  topLevel := []
  totalVtxs := maxSize
  totalConsume := 0

variable (dag : DAG)

def set (id : Nat) (vtx : Vertex) : DAG := { dag with vtxs := update dag.vtxs id vtx }

def addOutEdge (source target : Nat) : DAG :=
  dag.set source { dag.vtxs source with outEdge := (dag.vtxs source).outEdge ++ [target] }

def setInDegree (id inDegree : Nat) : DAG := dag.set id { dag.vtxs id with inDegree := inDegree }

def addEdge (source target : Nat) : DAG :=
  if dag.totalVtxs ≤ source ∧ dag.totalVtxs ≤ target then dag
  else
    let dag := dag.addOutEdge source target
    dag.setInDegree target (((dag.vtxs target).inDegree + 1) % idRange)

def generate : DAG :=
  { dag with topLevel := dag.topLevel ++
      (List.range dag.totalVtxs).filter fun id => (dag.vtxs id).inDegree = 0 }

end DAG

/-- `m_criticals` of `CriticalField`: the latest transaction that has a field. -/
abbrev CriticalField (F : Type) := F → Option Nat

def CriticalField.update [DecidableEq F] (latest : CriticalField F) (c : F) (id : Nat) :
    CriticalField F :=
  Function.update latest c (some id)

namespace TxDAG

def addEdges (latest : CriticalField F) (id : Nat) (dag : DAG) (criticals : List F) : DAG :=
  criticals.foldl (fun dag c =>
    match latest c with
    | some pId => dag.addEdge pId id
    | none => dag) dag

/-- The loop of `init`, from the transaction `id` on. -/
def addTransactions [DecidableEq F] : Nat → CriticalField F → DAG → List (List F) → DAG
  | _, _, dag, [] => dag
  | id, latest, dag, criticals :: rest =>
    addTransactions (id + 1) (criticals.foldl (fun latest c => latest.update c id) latest)
      (addEdges latest id dag criticals) rest

def init [DecidableEq F] (txsCriticals : List (List F)) : DAG :=
  (addTransactions 0 (fun _ => none) (.init txsCriticals.length) txsCriticals).generate

end TxDAG

/-! ## The edges -/

namespace DAG

variable {dag : DAG} {source target i j : Nat}

/-- The number of edges into `j`, with `edges i` the edges out of `i`. -/
def incoming (n : Nat) (edges : Nat → List Nat) (j : Nat) : Nat := ∑ i ∈ range n, (edges i).count j

theorem incoming_update {n} (edges : Nat → List Nat) {i} (hi : i < n) (es : List Nat) (j : Nat) :
    incoming n (update edges i es) j + (edges i).count j = incoming n edges j + es.count j := by
  have hmem : i ∈ range n := mem_range.mpr hi
  have hrest : ∑ k ∈ (range n).erase i, (update edges i es k).count j =
      ∑ k ∈ (range n).erase i, (edges k).count j := by
    refine sum_congr rfl fun k hk => ?_
    rw [update_of_ne (ne_of_mem_erase hk)]
  unfold incoming
  rw [← add_sum_erase _ _ hmem, ← add_sum_erase (range n) _ hmem, hrest, update_self]
  omega

theorem addEdge_eq (h : source < dag.totalVtxs) :
    dag.addEdge source target =
      (dag.addOutEdge source target).setInDegree target
        (((dag.vtxs target).inDegree + 1) % idRange) := by
  have hdegree : ((dag.addOutEdge source target).vtxs target).inDegree =
      (dag.vtxs target).inDegree := by
    by_cases htarget : target = source
    · subst htarget
      simp [addOutEdge, set]
    · simp [addOutEdge, set, htarget]
  unfold addEdge
  rw [if_neg (by omega)]
  simp [hdegree]

theorem addEdge_outEdge (h : source < dag.totalVtxs) (i : Nat) :
    ((dag.addEdge source target).vtxs i).outEdge =
      update (fun i => (dag.vtxs i).outEdge) source
        ((dag.vtxs source).outEdge ++ [target]) i := by
  rw [addEdge_eq h]
  simp only [setInDegree, addOutEdge, set, update_apply]
  grind

theorem addEdge_inDegree (h : source < dag.totalVtxs) (j : Nat) :
    ((dag.addEdge source target).vtxs j).inDegree =
      if j = target then ((dag.vtxs j).inDegree + 1) % idRange else (dag.vtxs j).inDegree := by
  rw [addEdge_eq h]
  simp only [setInDegree, addOutEdge, set, update_apply]
  grind

@[simp] theorem addEdge_totalVtxs : (dag.addEdge source target).totalVtxs = dag.totalVtxs := by
  unfold addEdge
  split <;> rfl

@[simp] theorem addEdge_topLevel : (dag.addEdge source target).topLevel = dag.topLevel := by
  unfold addEdge
  split <;> rfl

def edges (dag : DAG) (i : Nat) : List Nat := (dag.vtxs i).outEdge

/-- `inDegree` counts the edges, as far as its 32 bits go. -/
def Counted (dag : DAG) : Prop :=
  ∀ j, (dag.vtxs j).inDegree = incoming dag.totalVtxs dag.edges j % idRange

theorem incoming_addEdge (h : source < dag.totalVtxs) (target j : Nat) :
    incoming dag.totalVtxs (dag.addEdge source target).edges j =
      incoming dag.totalVtxs dag.edges j + if j = target then 1 else 0 := by
  have hedges : (dag.addEdge source target).edges =
      update dag.edges source (dag.edges source ++ [target]) :=
    funext (addEdge_outEdge h)
  have hupdate := incoming_update dag.edges h (dag.edges source ++ [target]) j
  rw [List.count_append] at hupdate
  rw [hedges]
  by_cases hj : j = target
  · rw [hj, List.count_singleton_self] at hupdate
    rw [if_pos hj, hj]
    omega
  · have hzero : List.count j [target] = 0 := List.count_eq_zero_of_not_mem (by simpa using hj)
    rw [if_neg hj]
    omega

theorem Counted.addEdge (hdag : dag.Counted) (h : source < dag.totalVtxs) :
    (dag.addEdge source target).Counted := by
  intro j
  rw [addEdge_totalVtxs, incoming_addEdge h, addEdge_inDegree h, hdag j]
  split
  · rw [Nat.mod_add_mod]
  · rfl

theorem mem_edges_addEdge (h : source < dag.totalVtxs) :
    j ∈ (dag.addEdge source target).edges i ↔ j ∈ dag.edges i ∨ i = source ∧ j = target := by
  rw [edges, addEdge_outEdge h, update_apply]
  split
  · simp_all [edges]
  · simp_all [edges]

end DAG

namespace TxDAG

open DAG

variable {latest : CriticalField F} {id k : Nat} {dag : DAG} {txs : List (List F)}

structure EdgesAdded (latest : CriticalField F) (id : Nat) (criticals : List F)
    (dag dag' : DAG) : Prop where
  totalVtxs : dag'.totalVtxs = dag.totalVtxs
  topLevel : dag'.topLevel = dag.topLevel
  counted : dag.Counted → dag'.Counted
  others : ∀ j, j ≠ id → incoming dag'.totalVtxs dag'.edges j = incoming dag.totalVtxs dag.edges j
  own : incoming dag'.totalVtxs dag'.edges id ≤
    incoming dag.totalVtxs dag.edges id + criticals.countP fun c => (latest c).isSome
  mem : ∀ i j, j ∈ dag'.edges i ↔
    j ∈ dag.edges i ∨ j = id ∧ ∃ c ∈ criticals, latest c = some i

theorem addEdges_added (hlatest : ∀ c p, latest c = some p → p < dag.totalVtxs) (id : Nat)
    (criticals : List F) :
    EdgesAdded latest id criticals dag (addEdges latest id dag criticals) := by
  induction criticals generalizing dag with
  | nil => constructor <;> simp [addEdges]
  | cons c criticals ih =>
    cases hc : latest c with
    | none =>
      have heq : addEdges latest id dag (c :: criticals) = addEdges latest id dag criticals := by
        simp [addEdges, hc]
      have h := ih hlatest
      rw [heq]
      constructor
      case totalVtxs => exact h.totalVtxs
      case topLevel => exact h.topLevel
      case counted => exact h.counted
      case others => exact h.others
      case own => simpa [hc] using h.own
      case mem =>
        intro i j
        simp [h.mem, hc]
    | some p =>
      have hp := hlatest c p hc
      have heq : addEdges latest id dag (c :: criticals) =
          addEdges latest id (dag.addEdge p id) criticals := by
        simp [addEdges, hc]
      have h := @ih (dag.addEdge p id) (by simpa using hlatest)
      have hincoming := incoming_addEdge hp id
      rw [heq]
      constructor
      case totalVtxs => rw [h.totalVtxs, addEdge_totalVtxs]
      case topLevel => rw [h.topLevel, addEdge_topLevel]
      case counted => exact fun hcounted => h.counted (hcounted.addEdge hp)
      case others =>
        intro j hj
        rw [h.others j hj, addEdge_totalVtxs, hincoming, if_neg hj, Nat.add_zero]
      case own =>
        have hown := h.own
        rw [addEdge_totalVtxs, hincoming, if_pos rfl] at hown
        rw [List.countP_cons, hc, isSome_some, if_pos rfl]
        omega
      case mem =>
        intro i j
        simp only [h.mem, mem_edges_addEdge hp, List.mem_cons, exists_eq_or_imp, hc, some.injEq]
        grind

/-- `h` is the last of the first `k` transactions that has the field `c`. -/
def LatestHolder (txs : List (List F)) (k : Nat) (c : F) (h : Nat) : Prop :=
  h < k ∧ c ∈ txs.getD h [] ∧ ∀ i, h < i → i < k → c ∉ txs.getD i []

theorem exists_latestHolder {c i} (hi : i < k) (hc : c ∈ txs.getD i []) :
    ∃ h, i ≤ h ∧ LatestHolder txs k c h := by
  induction k with
  | zero => omega
  | succ k ih =>
    by_cases hk : c ∈ txs.getD k []
    · refine ⟨k, by omega, by omega, hk, ?_⟩
      intro j hj hj'
      omega
    · have hne : i ≠ k := by
        rintro rfl
        exact hk hc
      obtain ⟨h, hle, _, hmem, hlast⟩ := ih (by omega)
      refine ⟨h, hle, by omega, hmem, ?_⟩
      intro j hj _
      by_cases hjk : j = k
      · rwa [hjk]
      · exact hlast j hj (by omega)

section

variable (txs : List (List F))

def sharedEntries [DecidableEq F] (j : Nat) : Nat :=
  (txs.getD j []).countP fun c => (txs.take j).any fun earlier => c ∈ earlier

/-- The edges among the first `k` transactions. -/
structure Linked [DecidableEq F] (k : Nat) (dag : DAG) : Prop where
  totalVtxs : dag.totalVtxs = txs.length
  counted : dag.Counted
  bound : ∀ j, incoming dag.totalVtxs dag.edges j ≤ sharedEntries txs j
  forward : ∀ i j, j ∈ dag.edges i → txs.getD i [] ≠ [] ∧ i < j ∧ j < k
  linked : ∀ j < k, ∀ c ∈ txs.getD j [], ∀ h, LatestHolder txs j c h → j ∈ dag.edges h

/-- The loop of `init` after `k` transactions. -/
structure Built [DecidableEq F] (k : Nat) (latest : CriticalField F)
    (dag : DAG) : Prop extends Linked txs k dag where
  topLevel : dag.topLevel = []
  latest : ∀ c h, latest c = some h ↔ LatestHolder txs k c h

end

theorem foldl_update [DecidableEq F] (criticals : List F) (c : F) :
    criticals.foldl (fun latest c => CriticalField.update latest c id) latest c =
      if c ∈ criticals then some id else latest c := by
  induction criticals generalizing latest with
  | nil => simp
  | cons _ _ ih =>
    rw [List.foldl_cons, ih, CriticalField.update, update_apply]
    grind

theorem Built.addTransaction [DecidableEq F] (h : Built txs k latest dag) (hk : k < txs.length) :
    Built txs (k + 1)
      ((txs.getD k []).foldl (fun latest c => CriticalField.update latest c k) latest)
      (addEdges latest k dag (txs.getD k [])) := by
  have hlatest : ∀ c p, latest c = some p → p < dag.totalVtxs := by
    intro c p hp
    have := ((h.latest c p).mp hp).1
    have := h.totalVtxs
    omega
  have hadded := addEdges_added hlatest k (txs.getD k [])
  constructor
  case topLevel => rw [hadded.topLevel, h.topLevel]
  case latest =>
    intro c p
    rw [foldl_update]
    unfold LatestHolder
    split
    · grind
    · rw [h.latest]
      unfold LatestHolder
      grind
  case toLinked =>
    constructor
    case totalVtxs => rw [hadded.totalVtxs, h.totalVtxs]
    case counted => exact hadded.counted h.counted
    case bound =>
      intro j
      by_cases hj : j = k
      · have hnone : incoming dag.totalVtxs dag.edges k = 0 := by
          refine sum_eq_zero fun i _ => List.count_eq_zero_of_not_mem fun hmem => ?_
          have := (h.forward i k hmem).2.2
          omega
        have hshared : (txs.getD k []).countP (fun c => (latest c).isSome) ≤
            sharedEntries txs k := by
          refine List.countP_mono_left fun c _ hsome => ?_
          obtain ⟨p, hp⟩ := isSome_iff_exists.mp hsome
          obtain ⟨hlt, hmem, -⟩ := (h.latest c p).mp hp
          rw [List.getD_eq_getElem?_getD, List.getElem?_eq_getElem (hlt.trans hk),
            getD_some] at hmem
          rw [List.any_eq_true]
          exact ⟨_, List.mem_take_iff_getElem.mpr ⟨p, by omega, rfl⟩, by simpa using hmem⟩
        have hown := hadded.own
        rw [hj]
        omega
      · rw [hadded.others j hj]
        exact h.bound j
    case forward =>
      intro i j hj
      rw [hadded.mem] at hj
      rcases hj with hj | ⟨rfl, c, -, hc⟩
      · obtain ⟨hne, _, _⟩ := h.forward i j hj
        exact ⟨hne, by omega, by omega⟩
      · obtain ⟨hlt, hmem, -⟩ := (h.latest c i).mp hc
        exact ⟨List.ne_nil_of_mem hmem, hlt, by omega⟩
    case linked =>
      intro j _ c hc p hp
      rw [hadded.mem]
      by_cases hjk : j = k
      · subst hjk
        exact .inr ⟨rfl, c, hc, (h.latest c p).mpr hp⟩
      · exact .inl (h.linked j (by omega) c hc p hp)

theorem Built.addTransactions [DecidableEq F] (h : Built txs k latest dag) (hk : k ≤ txs.length)
    {rest} (hrest : txs.drop k = rest) :
    ∃ latest', Built txs txs.length latest' (addTransactions k latest dag rest) := by
  induction rest generalizing k latest dag with
  | nil =>
    have hlength : k = txs.length := Nat.le_antisymm hk (List.drop_eq_nil_iff.mp hrest)
    exact ⟨latest, hlength ▸ h⟩
  | cons criticals _ ih =>
    have hlt : k < txs.length := by
      by_contra hge
      rw [List.drop_eq_nil_of_le (Nat.le_of_not_lt hge)] at hrest
      cases hrest
    have hcons := List.drop_eq_getElem_cons hlt
    rw [hrest, List.cons.injEq] at hcons
    obtain ⟨hcriticals, hdrop⟩ := hcons
    have hget : txs.getD k [] = criticals := by
      rw [hcriticals, List.getD_eq_getElem?_getD, List.getElem?_eq_getElem hlt, getD_some]
    have hnext := h.addTransaction hlt
    rw [hget] at hnext
    exact ih hnext hlt hdrop.symm

theorem init_linked [DecidableEq F] (txs : List (List F)) :
    Linked txs txs.length (init txs) ∧
      (init txs).topLevel =
        (List.range txs.length).filter fun id => ((init txs).vtxs id).inDegree = 0 := by
  have hstart : Built txs 0 (fun _ => none) (.init txs.length) := by
    constructor
    case topLevel => rfl
    case latest =>
      intro c h
      simp [LatestHolder]
    case toLinked =>
      constructor
      case totalVtxs => rfl
      case counted =>
        intro j
        simp [DAG.init, DAG.edges, incoming]
      case bound => simp [DAG.init, DAG.edges, incoming]
      case forward => simp [DAG.init, DAG.edges]
      case linked => simp
  obtain ⟨_, hbuilt⟩ := hstart.addTransactions (Nat.zero_le _) List.drop_zero
  obtain ⟨totalVtxs, counted, bound, forward, linked⟩ := hbuilt.toLinked
  refine ⟨⟨totalVtxs, counted, bound, forward, linked⟩, ?_⟩
  simp [init, DAG.generate, hbuilt.topLevel, totalVtxs]

end TxDAG

end Loki.Fisco
