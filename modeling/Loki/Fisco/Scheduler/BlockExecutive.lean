import Loki.Fisco.Types
import Mathlib.Algebra.BigOperators.Group.Finset.Basic
import Mathlib.Algebra.Order.Ring.Nat
import Mathlib.Data.List.Perm.Basic

/-!
# Committing a block in two phases

`BlockExecutive::asyncCommit` of `bcos-scheduler/src/BlockExecutive.cpp`.  A block is written
to the ledger's cache, then prepared by the storage and by every executor, and then committed
by all of them, or rolled back when somebody could not prepare it.  Each phase counts the
replies in a `CommitStatus`, and the replies come in any order.

The storage is asked first in the prepare and commit phases, and the executors are asked when
its reply has come.  In the rollback phase all are asked at once.  The completion test
`checkAndCommit` runs when an executor replies, and never when the storage does.
-/

namespace Loki.Fisco

open List Function Nat

inductive SchedulerError where
  | unknownError
  | invalidStatus
  | invalidBlockNumber
  | invalidBlocks
  | nextBlockError
  | prewriteBlockError
  | commitError
  | rollbackError
  deriving DecidableEq, Repr

def SchedulerError.code : SchedulerError → Int
  | .unknownError => -70000
  | .invalidStatus => -69999
  | .invalidBlockNumber => -69998
  | .invalidBlocks => -69997
  | .nextBlockError => -69996
  | .prewriteBlockError => -69995
  | .commitError => -69994
  | .rollbackError => -69993

/-- `bcos::Error`, with the error that caused it if there is one. -/
inductive Error where
  | plain (code : Int) (message : String)
  | withPrev (code : Int) (message : String) (prev : Error)
  deriving DecidableEq, Repr

inductive Participant where
  | storage
  | executor (index : Nat)
  deriving DecidableEq, Repr

inductive Request where
  | prewriteBlock
  | prepare (participant : Participant)
  | commit (participant : Participant)
  | rollback (participant : Participant)
  deriving DecidableEq, Repr

structure Reply where
  request : Request
  error : Option Error
  deriving DecidableEq, Repr

/-! ## The three batches -/

structure CommitStatus where
  total : Nat
  success : Nat
  failed : Nat
  deriving DecidableEq, Repr

namespace CommitStatus

def new (total : Nat) : CommitStatus where
  total := total
  success := 0
  failed := 0

def record (status : CommitStatus) : Option Error → CommitStatus
  | some _ => { status with failed := status.failed + 1 }
  | none => { status with success := status.success + 1 }

def checkAndCommit {α : Type} (status : CommitStatus) (waiting withErrors succeeded : α) : α :=
  if status.success + status.failed < status.total then waiting
  else if 0 < status.failed then withErrors
  else succeeded

end CommitStatus

/-- The state that the callbacks of one `asyncCommit` share.  `pending` are the requests that
have no reply yet, `sent` are all requests, and `answers` are the calls of the callback. -/
structure BlockExecutive where
  number : Nat
  executors : Nat
  prepareStatus : CommitStatus
  commitStatus : CommitStatus
  rollbackStatus : CommitStatus
  pending : List Request
  sent : List Request
  answers : List (Option Error)
  deriving DecidableEq, Repr

namespace BlockExecutive

variable (executors : Nat) (s : BlockExecutive)

def executorList : List Participant := (range executors).map Participant.executor

def participants : List Participant := .storage :: executorList executors

def ask (requests : List Request) : BlockExecutive :=
  { s with pending := s.pending ++ requests, sent := s.sent ++ requests }

def answer (error : Option Error) : BlockExecutive := { s with answers := s.answers ++ [error] }

def asyncCommit (number executors : Nat) : BlockExecutive where
  number := number
  executors := executors
  prepareStatus := .new 0
  commitStatus := .new 0
  rollbackStatus := .new 0
  pending := [.prewriteBlock]
  sent := [.prewriteBlock]
  answers := []

def batchBlockCommit : BlockExecutive :=
  { s with commitStatus := .new (1 + s.executors) }.ask [.commit .storage]

def batchBlockRollback : BlockExecutive :=
  { s with rollbackStatus := .new (1 + s.executors) }.ask
    ((participants s.executors).map .rollback)

/-- The callback that `asyncCommit` hands to `batchBlockCommit`. -/
def onCommitted : Option Error → BlockExecutive
  | some e => s.answer (some (.withPrev SchedulerError.unknownError.code
      "Commit block to storage failed!" e))
  | none => s.answer none

/-- The callback that `asyncCommit` hands to `batchBlockRollback`. -/
def onRolledBack : Option Error → BlockExecutive
  | some e => s.answer (some e)
  | none => s

def commitErrors : Error :=
  .plain SchedulerError.commitError.code
    ("Commit block:" ++ toString s.number ++ " with errors! " ++ toString s.commitStatus.failed)

def rollbackErrors : Error :=
  .plain SchedulerError.rollbackError.code
    ("Rollback block:" ++ toString s.number ++ " with errors! " ++
      toString s.rollbackStatus.failed)

def checkPrepare : BlockExecutive :=
  s.prepareStatus.checkAndCommit s s.batchBlockRollback s.batchBlockCommit

def checkCommit : BlockExecutive :=
  s.commitStatus.checkAndCommit s (s.onCommitted (some s.commitErrors)) (s.onCommitted none)

def checkRollback : BlockExecutive :=
  s.rollbackStatus.checkAndCommit s (s.onRolledBack (some s.rollbackErrors)) (s.onRolledBack none)

def handle (request : Request) (error : Option Error) : BlockExecutive :=
  match request with
  | .prewriteBlock =>
    match error with
    | some e => s.answer (some (.withPrev SchedulerError.prewriteBlockError.code
        "Prewrite block error!" e))
    | none => { s with prepareStatus := .new (1 + s.executors) }.ask [.prepare .storage]
  | .prepare .storage =>
    { s with prepareStatus := s.prepareStatus.record error }.ask
      ((executorList s.executors).map .prepare)
  | .prepare (.executor _) => { s with prepareStatus := s.prepareStatus.record error }.checkPrepare
  | .commit .storage =>
    { s with commitStatus := s.commitStatus.record error }.ask
      ((executorList s.executors).map .commit)
  | .commit (.executor _) => { s with commitStatus := s.commitStatus.record error }.checkCommit
  | .rollback .storage => { s with rollbackStatus := s.rollbackStatus.record error }
  | .rollback (.executor _) =>
    { s with rollbackStatus := s.rollbackStatus.record error }.checkRollback

def receive (r : Reply) : Option BlockExecutive :=
  if r.request ∈ s.pending then
    some ({ s with pending := s.pending.erase r.request }.handle r.request r.error)
  else none

def run (replies : List Reply) : Option BlockExecutive := replies.foldlM receive s

/-! ## One batch of replies -/

/-- The replies so far and the requests that wait are together what the batch asks for. -/
structure Batch (phase : Participant → Request) (executors : Nat) (status : CommitStatus)
    (replies : List Reply) (waiting : List Request) : Prop where
  perm : (replies.map Reply.request ++ waiting).Perm ((participants executors).map phase)
  total : status.total = 1 + executors
  success : status.success = replies.countP fun r => r.error.isNone
  failed : status.failed = replies.countP fun r => r.error.isSome

namespace Batch

variable {phase : Participant → Request} {executors : Nat} {status : CommitStatus}
  {replies : List Reply} {waiting : List Request} {r : Reply}

theorem new (phase : Participant → Request) (executors : Nat) :
    Batch phase executors (.new (1 + executors)) [] ((participants executors).map phase) where
  perm := by simp
  total := rfl
  success := rfl
  failed := rfl

section

variable (h : Batch phase executors status replies waiting)

include h

theorem record (hr : r.request ∈ waiting) :
    Batch phase executors (status.record r.error) (replies ++ [r]) (waiting.erase r.request) := by
  obtain ⟨perm, total, success, failed⟩ := h
  constructor
  · have hwaiting := (perm_cons_erase hr).append_left (replies.map Reply.request)
    simpa using hwaiting.symm.trans perm
  all_goals
    cases herror : r.error <;> simp [CommitStatus.record, total, success, failed, herror]

theorem counted : status.success + status.failed + waiting.length = status.total := by
  have hlength := h.perm.length_eq
  have hsplit := replies.length_eq_countP_add_countP fun r => r.error.isNone
  have hfailed : (replies.countP fun r => !r.error.isNone) = status.failed := by simp [h.failed]
  simp only [length_append, length_map, participants, executorList, length_cons,
    length_range] at hlength
  rw [h.total, h.success, ← hfailed]
  simp only [decide_not, Bool.decide_eq_true] at hsplit
  omega

theorem request_eq (hr : r ∈ replies) : ∃ p, r.request = phase p := by
  have hmem := h.perm.subset (mem_append_left _ (mem_map_of_mem hr))
  obtain ⟨p, -, hp⟩ := mem_map.mp hmem
  exact ⟨p, hp.symm⟩

theorem notMem {request} (hrequest : ∀ p, request ≠ phase p) (error : Option Error) :
    ⟨request, error⟩ ∉ replies := by
  intro hmem
  obtain ⟨p, hp⟩ := h.request_eq hmem
  exact hrequest p hp

theorem failed_pos_iff : 0 < status.failed ↔ ∃ p e, ⟨phase p, some e⟩ ∈ replies := by
  rw [h.failed, countP_pos_iff]
  constructor
  · rintro ⟨⟨_, _⟩, hr, hsome⟩
    obtain ⟨p, rfl⟩ := h.request_eq hr
    obtain ⟨e, rfl⟩ := Option.isSome_iff_exists.mp hsome
    exact ⟨p, e, hr⟩
  · rintro ⟨p, e, hr⟩
    exact ⟨_, hr, rfl⟩

theorem nodup (hphase : Injective phase) : (replies.map Reply.request).Nodup := by
  have hparticipants : (participants executors).Nodup := by
    have hrange := nodup_range (n := executors).map (f := Participant.executor) (fun i j => by simp)
    simp [participants, executorList, hrange]
  exact (h.perm.nodup_iff.mpr (hparticipants.map hphase)).of_append_left

end

theorem failed_eq_zero_iff (h : Batch phase executors status replies [])
    (hphase : Injective phase) :
    status.failed = 0 ↔ ∀ p ∈ participants executors, ⟨phase p, none⟩ ∈ replies := by
  have hpos := h.failed_pos_iff
  have hall : ∀ p, p ∈ participants executors ↔ ∃ error, ⟨phase p, error⟩ ∈ replies := by
    intro p
    have hmem := h.perm.mem_iff (a := phase p)
    simp only [append_nil, mem_map, hphase.eq_iff, exists_eq_right] at hmem
    rw [← hmem]
    constructor
    · rintro ⟨⟨_, error⟩, hr, rfl⟩
      exact ⟨error, hr⟩
    · rintro ⟨error, hr⟩
      exact ⟨_, hr, rfl⟩
  constructor
  · intro _ p hp
    obtain ⟨error, hr⟩ := (hall p).mp hp
    cases error with
    | none => exact hr
    | some e =>
      have := hpos.mpr ⟨p, e, hr⟩
      omega
  · intro hgood
    by_contra hne
    obtain ⟨p, e, hr⟩ := hpos.mp (pos_of_ne_zero hne)
    have hgood := hgood p ((hall p).mpr ⟨_, hr⟩)
    have hinj := inj_on_of_nodup_map (h.nodup hphase) hr hgood rfl
    simp at hinj

theorem checkAndCommit_eq {α} (h : Batch phase executors status replies waiting) (a b c : α) :
    status.checkAndCommit a b c =
      if waiting = [] then if 0 < status.failed then b else c else a := by
  have hcounted := h.counted
  unfold CommitStatus.checkAndCommit
  by_cases hempty : waiting = []
  · simp only [hempty, length_nil, add_zero] at hcounted
    simp [hempty, hcounted]
  · have hpos := length_pos_iff.mpr hempty
    rw [if_pos (by omega), if_neg hempty]

end Batch

/-! ## The stages of a commit -/

def Uncommitted : Prop := ∀ p, Request.commit p ∉ s.sent

def prewritten : Reply := ⟨.prewriteBlock, none⟩

/-- All participants have answered their prepare requests, an executor among them. -/
structure Prepared (executors : Nat) (status : CommitStatus) (prepares : List Reply) : Prop where
  batch : Batch .prepare executors status prepares []
  some_executor : 1 ≤ executors

inductive Stage : List Reply → BlockExecutive → Prop
  | prewriting {s : BlockExecutive} (pending : s.pending = [.prewriteBlock])
      (answers : s.answers = []) (quiet : s.Uncommitted) : Stage [] s
  | refused {s : BlockExecutive} {e : Error} (pending : s.pending = [])
      (answers : ∃ e', s.answers = [some e']) (quiet : s.Uncommitted) :
      Stage [⟨.prewriteBlock, some e⟩] s
  | preparingStorage {s : BlockExecutive} (pending : s.pending = [.prepare .storage])
      (batch : Batch .prepare s.executors s.prepareStatus []
        ((participants s.executors).map .prepare))
      (answers : s.answers = []) (quiet : s.Uncommitted) : Stage [prewritten] s
  | preparing {s : BlockExecutive} {prepares : List Reply}
      (batch : Batch .prepare s.executors s.prepareStatus prepares s.pending)
      (pending : ∀ q ∈ s.pending, ∃ i, q = .prepare (.executor i))
      (more : s.executors = 0 ∨ s.pending ≠ [])
      (answers : s.answers = []) (quiet : s.Uncommitted) : Stage (prewritten :: prepares) s
  | committingStorage {s : BlockExecutive} {prepares : List Reply}
      (prepared : Prepared s.executors s.prepareStatus prepares)
      (good : s.prepareStatus.failed = 0) (pending : s.pending = [.commit .storage])
      (batch : Batch .commit s.executors s.commitStatus []
        ((participants s.executors).map .commit))
      (answers : s.answers = []) : Stage (prewritten :: prepares) s
  | committing {s : BlockExecutive} {prepares commits : List Reply}
      (prepared : Prepared s.executors s.prepareStatus prepares)
      (good : s.prepareStatus.failed = 0)
      (batch : Batch .commit s.executors s.commitStatus commits s.pending)
      (pending : ∀ q ∈ s.pending, ∃ i, q = .commit (.executor i))
      (waiting : s.pending ≠ [] → s.answers = [])
      (answers : s.pending = [] → ∃ error : Option Error, s.answers = [error] ∧
        (error = none ↔ s.commitStatus.failed = 0)) :
      Stage (prewritten :: prepares ++ commits) s
  | rollingBack {s : BlockExecutive} {prepares rollbacks : List Reply}
      (prepared : Prepared s.executors s.prepareStatus prepares)
      (bad : 0 < s.prepareStatus.failed)
      (batch : Batch .rollback s.executors s.rollbackStatus rollbacks s.pending)
      (silent : s.answers = [] ∨ ∃ e : Error, s.answers = [some e])
      (answers : s.answers ≠ [] ↔ s.pending = [] ∧ 0 < s.rollbackStatus.failed ∧
        ∀ e, rollbacks.getLast? ≠ some ⟨.rollback .storage, e⟩)
      (quiet : s.Uncommitted) : Stage (prewritten :: prepares ++ rollbacks) s

@[simp] theorem handle_executors (request) (error : Option Error) :
    (s.handle request error).executors = s.executors := by
  unfold handle checkPrepare checkCommit checkRollback CommitStatus.checkAndCommit
  repeat' split
  all_goals rfl

theorem receive_eq_some {s t : BlockExecutive} {r} :
    s.receive r = some t ↔ r.request ∈ s.pending ∧
      t = { s with pending := s.pending.erase r.request }.handle r.request r.error := by
  unfold receive
  split
  · simp_all [eq_comm]
  · simp_all

namespace Stage

variable {s t : BlockExecutive} {prepares commits rollbacks : List Reply} {r : Reply}

section

variable (hr : r.request ∈ s.pending)
  (ht : t = { s with pending := s.pending.erase r.request }.handle r.request r.error)
  (hanswers : s.answers = [])

include hr ht hanswers

theorem handle_prepare (hbatch : Batch .prepare s.executors s.prepareStatus prepares s.pending)
    (hpending : ∀ q ∈ s.pending, ∃ i, q = .prepare (.executor i)) (hquiet : s.Uncommitted) :
    Stage (prewritten :: (prepares ++ [r])) t := by
  obtain ⟨i, hi⟩ := hpending r.request hr
  have hnext := hbatch.record hr
  have hsome : 1 ≤ s.executors := by
    have hmem := hbatch.perm.subset (mem_append_right _ hr)
    simp only [hi, participants, executorList, map_cons, map_map, mem_cons,
      mem_map, mem_range, comp_apply] at hmem
    grind
  rw [hi] at ht hnext
  simp only [handle, checkPrepare] at ht
  rw [hnext.checkAndCommit_eq] at ht
  split at ht
  · rename_i hempty
    rw [hempty] at hnext ht
    have hprepared : Prepared s.executors (s.prepareStatus.record r.error) (prepares ++ [r]) :=
      ⟨hnext, hsome⟩
    split at ht
    · rw [← append_nil (prewritten :: _), ht]
      apply Stage.rollingBack
      case prepared => exact hprepared
      case bad => assumption
      case batch => exact Batch.new _ _
      case silent => exact .inl hanswers
      case answers => simp [batchBlockRollback, ask, participants, hanswers]
      case quiet => simpa [Uncommitted, batchBlockRollback, ask] using hquiet
    · rw [ht]
      apply Stage.committingStorage
      case prepared => exact hprepared
      case good => simp_all [batchBlockCommit, ask]
      case pending => rfl
      case batch => exact Batch.new _ _
      case answers => exact hanswers
  · rw [ht]
    apply Stage.preparing
    case batch => exact hnext
    case pending =>
      intro q hq
      exact hpending q (mem_of_mem_erase hq)
    case more => exact .inr ‹_›
    case answers => exact hanswers
    case quiet => exact hquiet

theorem handle_commit (hprepared : Prepared s.executors s.prepareStatus prepares)
    (hgood : s.prepareStatus.failed = 0)
    (hbatch : Batch .commit s.executors s.commitStatus commits s.pending)
    (hpending : ∀ q ∈ s.pending, ∃ i, q = .commit (.executor i)) :
    Stage (prewritten :: prepares ++ (commits ++ [r])) t := by
  obtain ⟨i, hi⟩ := hpending r.request hr
  have hnext := hbatch.record hr
  rw [hi] at ht hnext
  simp only [handle, checkCommit] at ht
  rw [hnext.checkAndCommit_eq] at ht
  split_ifs at ht
  all_goals
    rw [ht]
    apply Stage.committing
    case prepared => exact hprepared
    case good => exact hgood
    case batch => exact hnext
    case pending =>
      intro q hq
      exact hpending q (mem_of_mem_erase hq)
    case waiting => simp_all [onCommitted, answer]
    case answers => simp_all [onCommitted, answer, pos_iff_ne_zero]

theorem handle_rollback (hprepared : Prepared s.executors s.prepareStatus prepares)
    (hbad : 0 < s.prepareStatus.failed)
    (hbatch : Batch .rollback s.executors s.rollbackStatus rollbacks s.pending)
    (hquiet : s.Uncommitted) : Stage (prewritten :: prepares ++ (rollbacks ++ [r])) t := by
  have hnext := hbatch.record hr
  obtain ⟨p, hp⟩ : ∃ p, r.request = .rollback p :=
    hnext.request_eq (mem_append_right _ (mem_singleton_self r))
  obtain ⟨request, error⟩ := r
  subst hp
  cases p with
  | storage =>
    -- the replies are counted only when an executor's comes
    subst ht
    apply Stage.rollingBack
    case prepared => exact hprepared
    case bad => exact hbad
    case batch => exact hnext
    case silent => exact .inl hanswers
    case answers => simp [handle, hanswers]
    case quiet => exact hquiet
  | executor =>
    simp only [handle, checkRollback] at ht
    rw [hnext.checkAndCommit_eq] at ht
    split_ifs at ht
    all_goals
      rw [ht]
      apply Stage.rollingBack
      case prepared => exact hprepared
      case bad => exact hbad
      case batch => exact hnext
      case silent => simp [onRolledBack, answer, hanswers]
      case answers => simp_all [onRolledBack, answer]
      case quiet => exact hquiet

end

protected theorem receive {replies : List Reply} (h : Stage replies s)
    (hreceive : s.receive r = some t) : Stage (replies ++ [r]) t := by
  obtain ⟨hr, ht⟩ := receive_eq_some.mp hreceive
  cases h with
  | prewriting pending answers quiet =>
    obtain ⟨_, error⟩ := r
    rw [pending, mem_singleton] at hr
    rw [pending] at ht
    subst ht hr
    cases error with
    | some =>
      apply Stage.refused
      case pending => rfl
      case answers => simp [handle, answer, answers]
      case quiet => exact quiet
    | none =>
      apply Stage.preparingStorage
      case pending => rfl
      case batch => exact Batch.new _ _
      case answers => exact answers
      case quiet => simpa [Uncommitted, handle, ask] using quiet
  | refused pending => simp [pending] at hr
  | preparingStorage pending batch answers quiet =>
    have hnext := batch.record (r := r) (by simp_all [participants])
    rw [pending, mem_singleton] at hr
    simp only [hr, pending, erase_cons_head] at ht
    subst ht
    apply Stage.preparing
    case batch => simpa [hr, handle, ask, participants] using hnext
    case pending => simp [handle, ask, executorList]
    case more => cases s.executors <;> simp [handle, ask, executorList, range_succ]
    case answers => exact answers
    case quiet => simpa [Uncommitted, handle, ask] using quiet
  | preparing batch pending _ answers quiet =>
    exact handle_prepare hr ht answers batch pending quiet
  | committingStorage prepared good pending batch answers =>
    have hnext := batch.record (r := r) (by simp_all [participants])
    have hsome := prepared.some_executor
    rw [pending, mem_singleton] at hr
    simp only [hr, pending, erase_cons_head] at ht
    subst ht
    apply Stage.committing
    case prepared => exact prepared
    case good => exact good
    case batch => simpa [hr, handle, ask, participants] using hnext
    case pending => simp [handle, ask, executorList]
    case waiting =>
      intro
      exact answers
    case answers =>
      simp only [handle, ask, executorList, nil_append, map_eq_nil_iff, range_eq_nil]
      omega
  | committing prepared good batch pending waiting =>
    rw [append_assoc]
    exact handle_commit hr ht (waiting (ne_nil_of_mem hr)) prepared good batch pending
  | rollingBack prepared bad batch _ answers quiet =>
    have hanswers : s.answers = [] := by
      by_contra hne
      simp [(answers.mp hne).1] at hr
    rw [append_assoc]
    exact handle_rollback hr ht hanswers prepared bad batch quiet

protected theorem run {number executors : Nat} {replies}
    (h : (asyncCommit number executors).run replies = some s) :
    Stage replies s ∧ s.executors = executors := by
  induction replies using reverseRecOn generalizing s with
  | nil =>
    simp only [BlockExecutive.run, foldlM_nil, pure, Option.some.injEq] at h
    subst h
    exact ⟨.prewriting rfl rfl (by simp [Uncommitted, asyncCommit]), rfl⟩
  | append_singleton _ _ ih =>
    simp only [BlockExecutive.run, foldlM_append, foldlM_cons, foldlM_nil] at h
    obtain ⟨_, hs', ht⟩ := Option.bind_eq_some_iff.mp h
    simp only [bind_pure] at ht
    obtain ⟨hstage, hexecutors⟩ := ih hs'
    refine ⟨hstage.receive ht, ?_⟩
    rw [(receive_eq_some.mp ht).2, handle_executors, hexecutors]

end Stage

/-! ## The answer -/

/-- What a caller expects when all replies have come: one call of the callback, which has no
error when all participants prepared and committed, and no commit after a failed prepare. -/
structure Answered (replies : List Reply) (s : BlockExecutive) : Prop where
  once : s.answers.length = 1
  noError : s.answers = [none] ↔ ∀ p ∈ participants s.executors,
    ⟨.prepare p, none⟩ ∈ replies ∧ ⟨.commit p, none⟩ ∈ replies
  noCommit : (∃ p e, ⟨.prepare p, some e⟩ ∈ replies) → s.Uncommitted

/-- The replies on which `asyncCommit` answers: the ledger could not write the block, or there
is an executor and either all could prepare, or somebody could not roll back and the storage
was not the last to say whether it could. -/
def Answerable (replies : List Reply) : Prop :=
  (∃ e, ⟨.prewriteBlock, some e⟩ ∈ replies) ∨
    1 ≤ executors ∧
      ((∀ p e, ⟨.prepare p, some e⟩ ∉ replies) ∨
        (∃ p e, ⟨.rollback p, some e⟩ ∈ replies) ∧
          ∀ e, replies.getLast? ≠ some ⟨.rollback .storage, e⟩)

namespace Stage

variable {s : BlockExecutive} {replies : List Reply}

theorem prepare_injective : Injective Request.prepare :=
  fun _ _ h => Request.prepare.inj h

theorem commit_injective : Injective Request.commit :=
  fun _ _ h => Request.commit.inj h

theorem uncommitted (h : Stage replies s) (hfailed : ∃ p e, ⟨.prepare p, some e⟩ ∈ replies) :
    s.Uncommitted := by
  have hgood : ∀ {prepares commits : List Reply},
      Batch .prepare s.executors s.prepareStatus prepares [] → s.prepareStatus.failed = 0 →
      (∀ p error, ⟨.prepare p, error⟩ ∉ commits) →
      replies = prewritten :: prepares ++ commits → False := by
    rintro prepares _ prepared good hcommits rfl
    obtain ⟨p, e, hr⟩ := hfailed
    have hmem : ⟨.prepare p, some e⟩ ∈ prepares := by simpa [prewritten, hcommits] using hr
    have := prepared.failed_pos_iff.mpr ⟨p, e, hmem⟩
    omega
  cases h with
  | prewriting _ _ quiet | refused _ _ quiet | preparingStorage _ _ _ quiet
  | preparing _ _ _ _ quiet | rollingBack _ _ _ _ _ quiet => exact quiet
  | committingStorage prepared good =>
    exact absurd (append_nil _).symm (hgood prepared.batch good (by simp))
  | committing prepared good batch =>
    exact (hgood prepared.batch good (fun p => batch.notMem (by simp)) rfl).elim

theorem answerable_rolledBack {status rollbackStatus executors prepares rollbacks}
    (prepared : Prepared executors status prepares) (bad : 0 < status.failed)
    (batch : Batch .rollback executors rollbackStatus rollbacks []) :
    Answerable executors (prewritten :: prepares ++ rollbacks) ↔
      0 < rollbackStatus.failed ∧ ∀ e, rollbacks.getLast? ≠ some ⟨.rollback .storage, e⟩ := by
  obtain ⟨p, e, hprepare⟩ := prepared.batch.failed_pos_iff.mp bad
  have hmem : ∀ r, r ∈ prewritten :: prepares ++ rollbacks ↔
      r = prewritten ∨ r ∈ prepares ∨ r ∈ rollbacks := by
    intro r
    rw [cons_append, mem_cons, mem_append]
  have hne : rollbacks ≠ [] := by
    rintro rfl
    simpa [participants] using batch.perm.length_eq
  simp only [Answerable, hmem, getLast?_append_of_ne_nil _ hne]
  constructor
  · rintro (⟨e, heq | hr | hr⟩ | ⟨-, hgood | ⟨⟨q, e', heq | hr | hr⟩, hlast⟩⟩)
    · simp [prewritten] at heq
    · exact absurd hr (prepared.batch.notMem (by simp) _)
    · exact absurd hr (batch.notMem (by simp) _)
    · exact absurd (.inr (.inl hprepare)) (hgood p e)
    · simp [prewritten] at heq
    · exact absurd hr (prepared.batch.notMem (by simp) _)
    · exact ⟨batch.failed_pos_iff.mpr ⟨q, e', hr⟩, hlast⟩
  · rintro ⟨hpos, hlast⟩
    obtain ⟨q, e', hr⟩ := batch.failed_pos_iff.mp hpos
    exact .inr ⟨prepared.some_executor, .inr ⟨⟨q, e', .inr (.inr hr)⟩, hlast⟩⟩

theorem answered_iff (h : Stage replies s) (hpending : s.pending = []) :
    Answered replies s ↔ Answerable s.executors replies := by
  have hnoCommit := h.uncommitted
  cases h with
  | prewriting pending | preparingStorage pending | committingStorage _ _ pending =>
    simp [pending] at hpending
  | refused _ answers =>
    obtain ⟨e', answers⟩ := answers
    constructor
    · intro
      exact .inl ⟨_, mem_singleton_self _⟩
    · intro
      refine ⟨by simp [answers], ?_, hnoCommit⟩
      simp only [answers, cons.injEq, reduceCtorEq, and_true, mem_singleton,
        Reply.mk.injEq, and_self, imp_false, false_iff, not_forall, not_not]
      exact ⟨.storage, mem_cons_self⟩
  | preparing batch _ more answers =>
    have hzero : s.executors = 0 := more.resolve_right (absurd hpending)
    constructor
    · rintro ⟨once, -, -⟩
      simp [answers] at once
    · rintro (⟨e, hr⟩ | ⟨_, -⟩)
      · simp only [prewritten, mem_cons, Reply.mk.injEq, reduceCtorEq, and_false,
          false_or] at hr
        exact absurd hr (batch.notMem (by simp) _)
      · omega
  | @committing _ prepares commits prepared good batch _ _ answers =>
    rw [hpending] at batch
    obtain ⟨error, answers, herror⟩ := answers hpending
    have hcommits : ∀ p error, ⟨.prepare p, error⟩ ∉ commits := fun p => batch.notMem (by simp)
    have hprepares : ∀ p error, ⟨.commit p, error⟩ ∉ prepares := fun p =>
      prepared.batch.notMem (by simp)
    have hall := (prepared.batch.failed_eq_zero_iff prepare_injective).mp good
    constructor
    · intro
      refine .inr ⟨prepared.some_executor, .inl ?_⟩
      intro p e hr
      have hmem : ⟨.prepare p, some e⟩ ∈ prepares := by simpa [prewritten, hcommits] using hr
      have := prepared.batch.failed_pos_iff.mpr ⟨p, e, hmem⟩
      omega
    · intro
      refine ⟨by simp [answers], ?_, hnoCommit⟩
      rw [answers, singleton_inj, herror, batch.failed_eq_zero_iff commit_injective]
      simp only [prewritten, cons_append, mem_cons, Reply.mk.injEq, reduceCtorEq,
        false_and, mem_append, hcommits, hprepares, or_false, false_or]
      exact forall₂_congr fun p hp => by simp [hall p hp]
  | rollingBack prepared bad batch silent answers =>
    rw [hpending] at batch
    rw [eq_true hpending, true_and] at answers
    rw [answerable_rolledBack prepared bad batch, ← answers]
    constructor
    · rintro ⟨once, -, -⟩
      exact ne_nil_of_length_pos (once ▸ one_pos)
    · intro hne
      obtain ⟨_, hanswers⟩ := silent.resolve_left hne
      refine ⟨by simp [hanswers], ?_, hnoCommit⟩
      simp only [hanswers, cons.injEq, reduceCtorEq, and_true, false_iff]
      intro hall
      have hzero : s.prepareStatus.failed = 0 := by
        rw [prepared.batch.failed_eq_zero_iff prepare_injective]
        intro q hq
        have hr := (hall q hq).1
        rw [cons_append, mem_cons, mem_append] at hr
        rcases hr with heq | hr | hr
        · simp [prewritten] at heq
        · exact hr
        · exact absurd hr (batch.notMem (by simp) _)
      omega

end Stage

/-- In every run the commit phase is not entered when a prepare failed, and a run in which
every request has its reply ends with one answer, which is the right one, exactly when the
replies are answerable. -/
theorem asyncCommit_answered_iff (number executors : Nat) (replies : List Reply)
    (s : BlockExecutive) (h : (asyncCommit number executors).run replies = some s) :
    ((∃ p e, ⟨.prepare p, some e⟩ ∈ replies) → s.Uncommitted) ∧
      (s.pending = [] → (Answered replies s ↔ Answerable executors replies)) := by
  obtain ⟨hstage, rfl⟩ := Stage.run h
  exact ⟨hstage.uncommitted, hstage.answered_iff⟩

def refusal : Error := .plain (-1) "refused"

def refusedPrepare : List Reply :=
  [⟨.prewriteBlock, none⟩, ⟨.prepare .storage, none⟩, ⟨.prepare (.executor 0), some refusal⟩]

def rollbackFailed : List Reply :=
  refusedPrepare ++ [⟨.rollback .storage, none⟩, ⟨.rollback (.executor 0), some refusal⟩]

theorem asyncCommit_answered_iff_rollbackFailed :
    ∃ s, (asyncCommit 7 1).run rollbackFailed = some s ∧ Answered rollbackFailed s := by
  refine ⟨_, rfl, ?_⟩
  apply ((asyncCommit_answered_iff 7 1 _ _ rfl).2 rfl).mpr
  refine .inr ⟨by decide, .inr ⟨⟨.executor 0, refusal, ?_⟩, ?_⟩⟩ <;>
    simp [rollbackFailed, refusedPrepare]

/-- Without executors nobody calls the completion test, and after a rollback without errors
nobody calls the callback: all replies have come, and there is no answer. -/
theorem asyncCommit_not_answered :
    (∃ s, (asyncCommit 7 0).run [⟨.prewriteBlock, none⟩, ⟨.prepare .storage, none⟩] = some s ∧
      s.pending = [] ∧ s.answers = []) ∧
    (∃ s, (asyncCommit 7 1).run
        (refusedPrepare ++ [⟨.rollback .storage, none⟩, ⟨.rollback (.executor 0), none⟩]) =
        some s ∧ s.pending = [] ∧ s.answers = []) ∧
    ∃ s, (asyncCommit 7 1).run
        (refusedPrepare ++ [⟨.rollback (.executor 0), some refusal⟩, ⟨.rollback .storage, none⟩]) =
        some s ∧ s.pending = [] ∧ s.answers = [] :=
  ⟨⟨_, rfl, rfl, rfl⟩, ⟨_, rfl, rfl, rfl⟩, ⟨_, rfl, rfl, rfl⟩⟩

end BlockExecutive

end Loki.Fisco
