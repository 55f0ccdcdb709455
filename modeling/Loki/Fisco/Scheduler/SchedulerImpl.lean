import Loki.Fisco.Scheduler.BlockExecutive
import Loki.Foundation.Run

/-!
# The queue of executed blocks

`SchedulerImpl::executeBlock` and `SchedulerImpl::commitBlock` of
`bcos-scheduler/src/SchedulerImpl.cpp`.  Executed blocks wait in `m_blocks` until they are
committed.  An execution and a commit each hold a lock from the request to the callback, so
there is at most one of each, and both may be under way at the same time.

An input is a request, or the end of something that was started: of an execution, of
`asyncCommit`, of `asyncGetLedgerConfig` or of `asyncNotify`.  They come in any order.
-/

namespace Loki.Fisco

open Loki.Foundation List Option
open SchedulerError (invalidBlockNumber invalidBlocks invalidStatus unknownError)

structure SchedulerHeader where
  number : Int
  signatureList : List (Nat × Signature)
  stateRoot : HashType
  gasUsed : Nat
  txsRoot : HashType
  receiptsRoot : HashType
  deriving DecidableEq, Repr

structure SchedulerBlock where
  header : SchedulerHeader
  transactions : List HashType
  deriving DecidableEq, Repr

structure ExecutionResult where
  stateRoot : HashType
  gasUsed : Nat
  txsRoot : HashType
  receiptsRoot : HashType
  deriving DecidableEq, Repr

def SchedulerHeader.withResult (header : SchedulerHeader) (result : ExecutionResult) :
    SchedulerHeader :=
  { header with
    stateRoot := result.stateRoot
    gasUsed := result.gasUsed
    txsRoot := result.txsRoot
    receiptsRoot := result.receiptsRoot }

/-- An entry of `m_blocks`.  `header` is the header of the block, which `commitBlock` may
replace; `request` is the block as it was given to `executeBlock`. -/
structure Executive where
  request : SchedulerBlock
  header : SchedulerHeader
  result : Option SchedulerHeader
  deriving DecidableEq, Repr

def Executive.number (executive : Executive) : Int := executive.header.number

/-- How far the commit has come that holds `m_commitMutex`. -/
inductive CommitStage where
  | committing (header : SchedulerHeader)
  | readingConfig (header : SchedulerHeader)
  | notifying (header : SchedulerHeader) (blockNumber : Int)
  deriving DecidableEq, Repr

structure ExecuteReply where
  block : SchedulerBlock
  error : Option Error
  header : Option SchedulerHeader
  deriving DecidableEq, Repr

structure CommitReply where
  header : SchedulerHeader
  error : Option Error
  blockNumber : Option Int
  deriving DecidableEq, Repr

/-- `executing` and `commit` are what holds the two locks.  `executions`, `committed` and the
replies record what has happened. -/
structure SchedulerImpl where
  hashImpl : SchedulerHeader → String
  txNotifier : Bool
  blocks : List Executive
  lastExecutedBlockNumber : Int
  executing : Option SchedulerBlock
  commit : Option CommitStage
  executions : List (SchedulerBlock × SchedulerHeader)
  committed : List Int
  executeReplies : List ExecuteReply
  commitReplies : List CommitReply

namespace SchedulerImpl

def new (hashImpl : SchedulerHeader → String) (txNotifier : Bool) : SchedulerImpl where
  hashImpl := hashImpl
  txNotifier := txNotifier
  blocks := []
  lastExecutedBlockNumber := 0
  executing := none
  commit := none
  executions := []
  committed := []
  executeReplies := []
  commitReplies := []

variable (s : SchedulerImpl) (block : SchedulerBlock) (error : Option Error)

def replyExecute (header : Option SchedulerHeader) : SchedulerImpl :=
  { s with executeReplies := s.executeReplies ++ [⟨block, error, header⟩] }

def replyCommit (header : SchedulerHeader) (error : Option Error)
    (blockNumber : Option Int) : SchedulerImpl :=
  { s with commitReplies := s.commitReplies ++ [⟨header, error, blockNumber⟩] }

def emplaceBack : SchedulerImpl :=
  { s with blocks := s.blocks ++ [⟨block, block.header, none⟩], executing := some block }

def executeBlock : SchedulerImpl :=
  let requestNumber := block.header.number
  if s.executing.isSome then
    s.replyExecute block
      (some (.plain invalidStatus.code "Another block is executing!")) none
  else
    match s.blocks with
    | front :: rest =>
      let back := rest.getLastD front
      if front.number ≤ requestNumber ∧ requestNumber ≤ back.number then
        match s.blocks.find? fun executive => executive.number = requestNumber with
        | some executive => s.replyExecute block none executive.result
        | none => s
      else if requestNumber - back.number ≠ 1 then
        s.replyExecute block
          (some (.plain invalidBlockNumber.code
            ("Invalid block number: " ++ toString requestNumber ++ " current last number: " ++
              toString back.number))) none
      else s.emplaceBack block
    | [] =>
      if s.lastExecutedBlockNumber ≠ 0 ∧ requestNumber ≤ s.lastExecutedBlockNumber then
        s.replyExecute block
          (some (.plain invalidBlockNumber.code
            ("Try to execute an executed block: " ++ toString requestNumber ++
              ", last executed number: " ++ toString s.lastExecutedBlockNumber))) none
      else s.emplaceBack block

/-- `m_result` of the entry that is executing, which is the last one. -/
def setLastResult (header : SchedulerHeader) : List Executive → List Executive
  | [] => []
  | [executive] => [{ executive with result := some header }]
  | executive :: rest => executive :: setLastResult header rest

def onExecuted (outcome : Except Error ExecutionResult) : SchedulerImpl :=
  match s.executing with
  | none => s
  | some block =>
    match outcome with
    | .error e =>
      { s with blocks := s.blocks.tail, executing := none }.replyExecute block
        (some (.withPrev unknownError.code "Unknown error" e)) none
    | .ok result =>
      let header := block.header.withResult result
      { s with
        blocks := setLastResult header s.blocks
        lastExecutedBlockNumber := header.number
        executing := none
        executions := s.executions ++ [(block, header)] }.replyExecute block none (some header)

def commitBlock (s : SchedulerImpl) (header : SchedulerHeader) : SchedulerImpl :=
  if s.commit.isSome then
    let message :=
      match s.blocks with
      | [] =>
        "commitBlock: empty block queue, maybe the block has been committed! Block number: " ++
          toString header.number ++ ", hash: " ++ s.hashImpl header
      | front :: _ =>
        "commitBlock: Another block is committing! Block number: " ++
          toString front.number ++ ", hash: " ++ s.hashImpl front.header
    s.replyCommit header (some (.plain invalidStatus.code message)) none
  else
    match s.blocks with
    | [] =>
      s.replyCommit header
        (some (.plain invalidBlocks.code "No uncommitted block")) none
    | front :: rest =>
      if front.result.isNone then
        s.replyCommit header
          (some (.plain invalidStatus.code "Block is executing")) none
      else if header.number ≠ front.number then
        s.replyCommit header
          (some (.plain invalidBlockNumber.code
            ("Invalid block number, available block number: " ++ toString front.number))) none
      else
        let front := if front.header.signatureList = [] then { front with header := header }
          else front
        { s with blocks := front :: rest, commit := some (.committing header) }

def onCommitted : SchedulerImpl :=
  match s.commit with
  | some (.committing header) =>
    match error with
    | some e =>
      { s with commit := none }.replyCommit header
        (some (.withPrev unknownError.code "CommitBlock error" e)) none
    | none =>
      { s with
        commit := some (.readingConfig header)
        committed := s.committed ++ [header.number] }
  | _ => s

def onLedgerConfig (ledgerConfig : Except Error Int) : SchedulerImpl :=
  match s.commit with
  | some (.readingConfig header) =>
    match ledgerConfig with
    | .error e =>
      { s with commit := none }.replyCommit header
        (some (.withPrev unknownError.code "Get system config error" e)) none
    | .ok blockNumber =>
      if s.txNotifier then { s with commit := some (.notifying header blockNumber) }
      else
        { s with blocks := s.blocks.tail, commit := none }.replyCommit header none
          (some blockNumber)
  | _ => s

def onNotified : SchedulerImpl :=
  match s.commit with
  | some (.notifying header blockNumber) =>
    { s with blocks := s.blocks.tail, commit := none }.replyCommit header error
      (some blockNumber)
  | _ => s

inductive Input where
  | executeBlock (block : SchedulerBlock)
  | executed (outcome : Except Error ExecutionResult)
  | commitBlock (header : SchedulerHeader)
  | committed (error : Option Error)
  | ledgerConfig (ledgerConfig : Except Error Int)
  | notified (error : Option Error)

def step : Input → SchedulerImpl
  | .executeBlock block => s.executeBlock block
  | .executed outcome => s.onExecuted outcome
  | .commitBlock header => s.commitBlock header
  | .committed error => s.onCommitted error
  | .ledgerConfig ledgerConfig => s.onLedgerConfig ledgerConfig
  | .notified error => s.onNotified error

/-! ## A sound queue -/

def Consecutive (blocks : List Executive) : Prop :=
  blocks.IsChain fun a b => b.number = a.number + 1

def settled : List Executive :=
  if s.executing.isSome then s.blocks.dropLast else s.blocks

structure Sound (s : SchedulerImpl) : Prop where
  consecutive : Consecutive s.blocks
  results : ∀ e ∈ s.settled, e.result.isSome
  replies : ∀ r ∈ s.executeReplies, r.error = none →
    ∃ header, r.header = some header ∧ (r.block, header) ∈ s.executions
  committed : s.committed.Pairwise (· < ·)

def FailureRemoves (input : Input) : Prop :=
  ∀ e block, input = .executed (.error e) → s.executing = some block →
    ∃ executive, executive.request = block ∧
      s.blocks = (s.step input).blocks ++ [executive]

/-- A failing execution is alone in the queue, a request for a queued number is for the queued
block, no block has the number zero, and the configuration can be read after a commit. -/
def Orderly : Input → Prop
  | .executeBlock block => block.header.number ≠ 0 ∧
      ∀ e ∈ s.blocks, e.number = block.header.number → e.request = block
  | .executed (.error _) => s.blocks.length = 1
  | .ledgerConfig (.error _) => False
  | _ => True

instance (s : SchedulerImpl) : ∀ input, Decidable (s.Orderly input)
  | .executeBlock block => inferInstanceAs (Decidable (block.header.number ≠ 0 ∧
      ∀ e ∈ s.blocks, e.number = block.header.number → e.request = block))
  | .executed (.error _) => inferInstanceAs (Decidable (s.blocks.length = 1))
  | .ledgerConfig (.error _) => inferInstanceAs (Decidable False)
  | .executed (.ok _) | .ledgerConfig (.ok _) | .commitBlock _ | .committed _ | .notified _ =>
    inferInstanceAs (Decidable True)

end SchedulerImpl

namespace CommitStage

def header : CommitStage → SchedulerHeader
  | .committing header | .readingConfig header | .notifying header _ => header

def Done : CommitStage → Prop
  | .committing _ => False
  | .readingConfig _ | .notifying _ _ => True

end CommitStage

namespace SchedulerImpl

/-- The numbers of the queue follow each other, and the committed blocks are not above them. -/
structure Numbered (numbers committed : List Int) (done : Prop) : Prop where
  consecutive : numbers.IsChain fun a b => b = a + 1
  ne_zero : ∀ n ∈ numbers, n ≠ 0
  le : ∀ c ∈ committed, ∀ n ∈ numbers, c ≤ n
  lt : ¬ done → ∀ c ∈ committed, ∀ n ∈ numbers, c < n

namespace Numbered

variable {numbers committed : List Int} {n : Int} {done : Prop}

theorem pairwise (h : Numbered numbers committed done) : numbers.Pairwise (· < ·) :=
  isChain_iff_pairwise.mp (h.consecutive.imp fun a b hab => by omega)

theorem concat (h : Numbered numbers committed done) (hzero : n ≠ 0)
    (hlast : ∀ back ∈ numbers.getLast?, n = back + 1) (hnew : ∀ c ∈ committed, c < n) :
    Numbered (numbers ++ [n]) committed done where
  consecutive := by
    refine isChain_append.mpr ⟨h.consecutive, isChain_singleton _, ?_⟩
    intro back hback _ hm
    cases hm
    exact hlast back hback
  ne_zero := by simpa [or_imp, forall_and] using ⟨h.ne_zero, hzero⟩
  le c hc m hm := by
    rcases mem_append.mp hm with hm | hm
    · exact h.le c hc m hm
    · rw [mem_singleton.mp hm]
      exact (hnew c hc).le
  lt hdone c hc m hm := by
    rcases mem_append.mp hm with hm | hm
    · exact h.lt hdone c hc m hm
    · rw [mem_singleton.mp hm]
      exact hnew c hc

theorem tail (h : Numbered (n :: numbers) committed done) (done') :
    Numbered numbers committed done' where
  consecutive := h.consecutive.tail
  ne_zero m hm := h.ne_zero m (mem_cons_of_mem _ hm)
  le c hc m hm := h.le c hc m (mem_cons_of_mem _ hm)
  lt _ c hc _ hm := (h.le c hc n mem_cons_self).trans_lt (rel_of_pairwise_cons h.pairwise hm)

theorem commit (h : Numbered (n :: numbers) committed done) :
    Numbered (n :: numbers) (committed ++ [n]) True where
  consecutive := h.consecutive
  ne_zero := h.ne_zero
  le c hc m hm := by
    rcases mem_append.mp hc with hc | hc
    · exact h.le c hc m hm
    · rw [mem_singleton.mp hc]
      rcases mem_cons.mp hm with rfl | hm
      · exact Int.le_refl _
      · exact (rel_of_pairwise_cons h.pairwise hm).le
  lt hdone := absurd trivial hdone

end Numbered

def CommitDone (s : SchedulerImpl) : Prop := ∃ stage, s.commit = some stage ∧ stage.Done

/-- The entries in front of the one that is executing have their results. -/
structure Inv (settled : List Executive) (s : SchedulerImpl) : Prop where
  blocks_eq : s.blocks = settled ++ s.executing.toList.map fun block => ⟨block, block.header, none⟩
  numbered : Numbered (s.blocks.map Executive.number) s.committed s.CommitDone
  executed : ∀ e ∈ settled, ∃ header, e.result = some header ∧ (e.request, header) ∈ s.executions ∧
    e.number ≤ s.lastExecutedBlockNumber ∧ s.lastExecutedBlockNumber ≠ 0
  replies : ∀ r ∈ s.executeReplies, r.error = none →
    ∃ header, r.header = some header ∧ (r.block, header) ∈ s.executions
  committed : s.committed.Pairwise (· < ·)
  front : ∀ stage, s.commit = some stage →
    ∃ front rest, settled = front :: rest ∧ front.number = stage.header.number
  committed_le_last : ∀ n ∈ s.committed,
    n ≤ s.lastExecutedBlockNumber ∧ s.lastExecutedBlockNumber ≠ 0

theorem Inv.new (hashImpl : SchedulerHeader → String) (txNotifier : Bool) :
    Inv [] (new hashImpl txNotifier) := by
  constructor
  case numbered => constructor <;> simp [SchedulerImpl.new]
  all_goals simp [SchedulerImpl.new]

namespace Inv

variable {s : SchedulerImpl} {settled : List Executive} {block : SchedulerBlock} {front : Executive}
  {rest : List Executive}

section

variable (h : Inv settled s)

include h

theorem settled_eq : s.settled = settled := by
  unfold SchedulerImpl.settled
  cases hexecuting : s.executing <;> simp [h.blocks_eq, hexecuting]

theorem sound : Sound s where
  consecutive := (isChain_map _).mp h.numbered.consecutive
  results e he := by
    rw [h.settled_eq] at he
    obtain ⟨header, hresult, -⟩ := h.executed e he
    simp [hresult]
  replies := h.replies
  committed := h.committed

theorem replyExecute (block) (error : Option Error) (header)
    (hreply : error = none → ∃ found, header = some found ∧ (block, found) ∈ s.executions) :
    Inv settled (s.replyExecute block error header) := by
  refine { h with replies := fun r hr hnone => ?_ }
  rcases mem_append.mp hr with hr | hr
  · exact h.replies r hr hnone
  · rw [mem_singleton.mp hr] at hnone ⊢
    exact hreply hnone

theorem replyExecute_error (block) (e : Error) :
    Inv settled (s.replyExecute block (some e) none) :=
  h.replyExecute block (some e) none nofun

theorem replyCommit (header) (error : Option Error)
    (blockNumber : Option Int) : Inv settled (s.replyCommit header error blockNumber) :=
  { h with }

theorem blocks_of_idle (hidle : s.executing = none) : s.blocks = settled := by
  simp [h.blocks_eq, hidle]

theorem emplaceBack (hidle : s.executing = none) (hzero : block.header.number ≠ 0)
    (hlast : ∀ back ∈ s.blocks.getLast?, block.header.number = back.number + 1)
    (hempty : s.blocks = [] → s.lastExecutedBlockNumber = 0 ∨
      s.lastExecutedBlockNumber < block.header.number) : Inv settled (s.emplaceBack block) := by
  have hnew : ∀ n ∈ s.committed, n < block.header.number := by
    intro n hn
    rcases eq_nil_or_concat s.blocks with hblocks | ⟨rest, back, hblocks⟩
    · have := h.committed_le_last n hn
      have := hempty hblocks
      omega
    · rw [concat_eq_append] at hblocks
      have hback := hlast back (by simp [hblocks])
      have := h.numbered.le n hn back.number (by simp [hblocks])
      omega
  refine { h with blocks_eq := ?_, numbered := ?_ }
  · rw [SchedulerImpl.emplaceBack, h.blocks_of_idle hidle]
    rfl
  · rw [SchedulerImpl.emplaceBack, map_append]
    refine h.numbered.concat hzero ?_ hnew
    simpa [getLast?_map, Executive.number] using hlast

theorem executeBlock (hblock : s.Orderly (.executeBlock block)) :
    Inv settled (s.executeBlock block) := by
  obtain ⟨hzero, hsame⟩ := hblock
  unfold SchedulerImpl.executeBlock
  dsimp only
  split
  · exact h.replyExecute_error ..
  · rename_i hidle
    have hidle : s.executing = none := by simpa using hidle
    split
    · rename_i front rest hblocks
      split
      · split
        · rename_i executive hfind
          have hmem := mem_of_find?_eq_some hfind
          have hnumber : executive.number = block.header.number := by simpa using find?_some hfind
          obtain ⟨header, hheader, hexecuted, -⟩ :=
            h.executed executive (h.blocks_of_idle hidle ▸ hmem)
          rw [hsame executive hmem hnumber] at hexecuted
          exact h.replyExecute block none executive.result fun _ => ⟨header, hheader, hexecuted⟩
        · exact h
      · split
        · exact h.replyExecute_error ..
        · rename_i hnext
          apply h.emplaceBack hidle hzero
          · intro back hback
            rw [hblocks, getLast?_cons] at hback
            cases hback
            rw [getLastD_eq_getLast?] at hnext
            omega
          · intro hempty
            rw [hempty] at hblocks
            cases hblocks
    · rename_i hblocks
      split
      · exact h.replyExecute_error ..
      · rename_i hlast
        apply h.emplaceBack hidle hzero
        · intro _ hback
          rw [hblocks] at hback
          cases hback
        · intro
          omega

end

theorem setLastResult_concat (header) (rest : List Executive) (e : Executive) :
    setLastResult header (rest ++ [e]) = rest ++ [{ e with result := some header }] := by
  induction rest with
  | nil => rfl
  | cons _ rest ih =>
    cases rest with
    | nil => rfl
    | cons => simpa [setLastResult] using ih

section

variable (h : Inv settled s)

include h

theorem onExecuted_ok (result) : ∃ settled, Inv settled (s.onExecuted (.ok result)) := by
  cases hexecuting : s.executing with
  | none =>
    rw [SchedulerImpl.onExecuted, hexecuting]
    exact ⟨settled, h⟩
  | some block =>
    have hblocks : s.blocks = settled ++ [⟨block, block.header, none⟩] := by
      simp [h.blocks_eq, hexecuting]
    have hset := setLastResult_concat (block.header.withResult result) settled
      ⟨block, block.header, none⟩
    have hnumbered := h.numbered
    rw [hblocks, map_append] at hnumbered
    have hown : block.header.number ∈ settled.map Executive.number ++ [block.header.number] := by
      simp
    have hzero := hnumbered.ne_zero _ hown
    -- the executed block has the largest number of the queue
    have hlt : ∀ e ∈ settled, e.number < block.header.number := fun e he =>
      (pairwise_append.mp hnumbered.pairwise).2.2 _ (mem_map_of_mem he) _ (mem_singleton_self _)
    simp only [SchedulerImpl.onExecuted, hexecuting]
    rw [hblocks, hset]
    refine ⟨settled ++ [⟨block, block.header, some (block.header.withResult result)⟩], ?_⟩
    constructor
    case blocks_eq => exact (append_nil _).symm
    case numbered =>
      rw [SchedulerImpl.replyExecute, map_append]
      exact hnumbered
    case executed =>
      intro e he
      rcases mem_append.mp he with he | he
      · obtain ⟨header, hheader, hmem, -⟩ := h.executed e he
        exact ⟨header, hheader, mem_append_left _ hmem, (hlt e he).le, hzero⟩
      · rw [mem_singleton.mp he]
        exact ⟨_, rfl, mem_append_right _ (mem_singleton_self _), Int.le_refl _, hzero⟩
    case replies =>
      intro r hr hnone
      rcases mem_append.mp hr with hr | hr
      · obtain ⟨header, hheader, hmem⟩ := h.replies r hr hnone
        exact ⟨header, hheader, mem_append_left _ hmem⟩
      · rw [mem_singleton.mp hr]
        exact ⟨_, rfl, mem_append_right _ (mem_singleton_self _)⟩
    case committed => exact h.committed
    case front =>
      intro stage hstage
      obtain ⟨front, rest, rfl, hnumber⟩ := h.front stage hstage
      exact ⟨front, _, rfl, hnumber⟩
    case committed_le_last => exact fun n hn => ⟨hnumbered.le n hn _ hown, hzero⟩

theorem settled_of_length (hexecuting : s.executing = some block) (hlength : s.blocks.length = 1) :
    settled = [] := by
  rw [h.blocks_eq, hexecuting, length_append] at hlength
  exact length_eq_zero_iff.mp (by simpa using hlength)

theorem onExecuted_error (e : Error) (hlength : s.blocks.length = 1) :
    Inv settled (s.onExecuted (.error e)) := by
  cases hexecuting : s.executing with
  | none =>
    rw [SchedulerImpl.onExecuted, hexecuting]
    exact h
  | some block =>
    obtain rfl := h.settled_of_length hexecuting hlength
    simp only [SchedulerImpl.onExecuted, hexecuting]
    apply replyExecute_error
    have htail : s.blocks.tail = [] := by simp [h.blocks_eq, hexecuting]
    rw [htail]
    refine { h with blocks_eq := rfl, numbered := ?_ }
    constructor <;> simp

theorem replaceFront {front' header} (hfree : s.commit = none)
    (hblocks : s.blocks = front :: rest) (hresult : front.result.isSome)
    (hheader : front.number = header.number) (hnumber' : front'.number = front.number)
    (hrequest' : front'.request = front.request) (hresult' : front'.result = front.result) :
    ∃ settled,
      Inv settled { s with blocks := front' :: rest, commit := some (.committing header) } := by
  have hqueue := hblocks.symm.trans h.blocks_eq
  cases settled with
  | nil =>
    -- the block that is executing has no result
    cases hexecuting : s.executing with
    | none => simp [hexecuting] at hqueue
    | some =>
      simp only [hexecuting, nil_append, toList_some, map_cons, cons.injEq] at hqueue
      simp [hqueue.1] at hresult
  | cons first others =>
    rw [cons_append, cons.injEq] at hqueue
    obtain ⟨rfl, rfl⟩ := hqueue
    refine ⟨front' :: others, { h with
      blocks_eq := rfl, numbered := ?_, executed := ?_, front := ?_ }⟩
    · have hnumbered := h.numbered
      rw [hblocks, map_cons, ← hnumber', ← map_cons] at hnumbered
      refine { hnumbered with lt := fun _ => hnumbered.lt ?_ }
      simp [CommitDone, hfree]
    · intro e he
      rcases mem_cons.mp he with rfl | he
      · rw [hresult', hrequest', hnumber']
        exact h.executed _ mem_cons_self
      · exact h.executed e (mem_cons_of_mem _ he)
    · intro _ hstage
      cases hstage
      exact ⟨front', others, rfl, hnumber'.trans hheader⟩

theorem commitBlock (header) : ∃ settled, Inv settled (s.commitBlock header) := by
  unfold SchedulerImpl.commitBlock
  split
  · exact ⟨_, h.replyCommit ..⟩
  · rename_i hfree
    have hfree : s.commit = none := by simpa using hfree
    split
    · exact ⟨_, h.replyCommit ..⟩
    · rename_i front rest hblocks
      split
      · exact ⟨_, h.replyCommit ..⟩
      · rename_i hresult
        split
        · exact ⟨_, h.replyCommit ..⟩
        · rename_i hnumber
          have hnumber : header.number = front.number := by simpa using hnumber
          apply h.replaceFront hfree hblocks _ hnumber.symm
          · split
            · exact hnumber
            · rfl
          · split <;> rfl
          · split <;> rfl
          · simpa [isSome_iff_ne_none] using hresult

theorem onCommitted (error : Option Error) : Inv settled (s.onCommitted error) := by
  unfold SchedulerImpl.onCommitted
  split
  · rename_i header hcommit
    have hnotDone : ¬ s.CommitDone := by
      rintro ⟨stage, hstage, hdone⟩
      rw [hcommit] at hstage
      cases hstage
      exact hdone
    obtain ⟨front, rest, rfl, hnumber⟩ := h.front _ hcommit
    have hnumber : front.number = header.number := hnumber
    have hlt := h.numbered.lt hnotDone
    split
    · apply replyCommit
      refine { h with numbered := { h.numbered with lt := fun _ => hlt }, front := ?_ }
      intro stage hstage
      cases hstage
    · have hnumbered := h.numbered
      have hmem : front.number ∈ s.blocks.map Executive.number := by simp [h.blocks_eq]
      refine { h with numbered := ?_, committed := ?_, front := ?_, committed_le_last := ?_ }
      · rw [h.blocks_eq, cons_append, map_cons] at hnumbered
        have hcommitted := hnumbered.commit
        rw [← map_cons, ← cons_append, ← h.blocks_eq, hnumber] at hcommitted
        exact { hcommitted with lt := fun hnot => absurd ⟨_, rfl, trivial⟩ hnot }
      · refine pairwise_append.mpr ⟨h.committed, pairwise_singleton _ _, ?_⟩
        intro n hn m hm
        rw [mem_singleton.mp hm, ← hnumber]
        exact hlt n hn _ hmem
      · intro _ hstage
        cases hstage
        exact ⟨_, _, rfl, hnumber⟩
      · intro n hn
        rcases mem_append.mp hn with hn | hn
        · exact h.committed_le_last n hn
        · obtain ⟨_, -, -, hlast⟩ := h.executed front mem_cons_self
          rw [mem_singleton.mp hn, ← hnumber]
          exact hlast
  · exact h

theorem popFront {stage} (hcommit : s.commit = some stage) :
    Inv settled.tail { s with blocks := s.blocks.tail, commit := none } := by
  obtain ⟨front, rest, rfl, -⟩ := h.front stage hcommit
  have hnumbered := h.numbered
  rw [h.blocks_eq, cons_append, map_cons] at hnumbered
  rw [h.blocks_eq, cons_append, tail_cons, tail_cons]
  refine
    { h with
      blocks_eq := rfl
      numbered := hnumbered.tail _
      executed := fun e he => h.executed e (mem_cons_of_mem _ he)
      front := ?_ }
  intro _ hstage
  cases hstage

theorem onLedgerConfig (blockNumber : Int) :
    ∃ settled, Inv settled (s.onLedgerConfig (.ok blockNumber)) := by
  unfold SchedulerImpl.onLedgerConfig
  split
  · rename_i header hcommit
    dsimp only
    split
    · refine ⟨settled, { h with numbered := { h.numbered with lt := ?_ }, front := ?_ }⟩
      · exact fun hnot => absurd ⟨_, rfl, trivial⟩ hnot
      · intro _ hstage
        cases hstage
        exact h.front (.readingConfig header) hcommit
    · exact ⟨_, (h.popFront hcommit).replyCommit ..⟩
  · exact ⟨settled, h⟩

theorem onNotified (error : Option Error) : ∃ settled, Inv settled (s.onNotified error) := by
  unfold SchedulerImpl.onNotified
  split
  · rename_i header blockNumber hcommit
    exact ⟨_, (h.popFront hcommit).replyCommit ..⟩
  · exact ⟨settled, h⟩

theorem step (input) (horderly : s.Orderly input) : ∃ settled, Inv settled (s.step input) := by
  cases input with
  | executeBlock => exact ⟨settled, h.executeBlock horderly⟩
  | executed outcome =>
    cases outcome with
    | error e => exact ⟨settled, h.onExecuted_error e horderly⟩
    | ok result => exact h.onExecuted_ok result
  | commitBlock header => exact h.commitBlock header
  | committed error => exact ⟨settled, h.onCommitted error⟩
  | ledgerConfig ledgerConfig =>
    cases ledgerConfig with
    | error => exact horderly.elim
    | ok blockNumber => exact h.onLedgerConfig blockNumber
  | notified error => exact h.onNotified error

theorem failureRemoves (input) (horderly : s.Orderly input) : s.FailureRemoves input := by
  rintro e block rfl hexecuting
  obtain rfl := h.settled_of_length hexecuting horderly
  refine ⟨⟨block, block.header, none⟩, rfl, ?_⟩
  simp [SchedulerImpl.step, SchedulerImpl.onExecuted, hexecuting, h.blocks_eq,
    SchedulerImpl.replyExecute]

end

end Inv

def blockOf (number : Int) (transactions : List HashType) : SchedulerBlock where
  header := ⟨number, [], 0, 0, 0, 0⟩
  transactions := transactions

def resultOf (stateRoot : HashType) : ExecutionResult where
  stateRoot := stateRoot
  gasUsed := 0
  txsRoot := 0
  receiptsRoot := 0

def startScheduler : SchedulerImpl := new (fun _ => "") false

/-- Two blocks are executed, the first is committed meanwhile, and the third fails alone. -/
def orderlyRun : List Input :=
  [.executeBlock (blockOf 1 [10]), .executed (.ok (resultOf 11)),
    .commitBlock (blockOf 1 [10]).header, .executeBlock (blockOf 2 [20]), .committed none,
    .ledgerConfig (.ok 1), .executed (.ok (resultOf 21)), .executeBlock (blockOf 2 [20]),
    .commitBlock (blockOf 2 [20]).header, .committed none, .ledgerConfig (.ok 2),
    .executeBlock (blockOf 3 [30]), .executed (.error (.plain (-1) "failed"))]

def failingRun : List Input :=
  [.executeBlock (blockOf 1 [10]), .executed (.ok (resultOf 11)), .executeBlock (blockOf 2 [20]),
    .executed (.error (.plain (-1) "failed"))]

def repeatedRun : List Input :=
  [.executeBlock (blockOf 1 [10]), .executed (.ok (resultOf 11)), .executeBlock (blockOf 1 [99])]

def unreadRun : List Input :=
  [.executeBlock (blockOf 1 [10]), .executed (.ok (resultOf 11)),
    .commitBlock (blockOf 1 [10]).header, .committed none,
    .ledgerConfig (.error (.plain (-1) "failed")), .commitBlock (blockOf 1 [10]).header,
    .committed none]

def genesisRun : List Input :=
  [.executeBlock (blockOf 0 [10]), .executed (.ok (resultOf 11)),
    .commitBlock (blockOf 0 [10]).header, .committed none, .ledgerConfig (.ok 0),
    .executeBlock (blockOf 0 [10]), .executed (.ok (resultOf 11)),
    .commitBlock (blockOf 0 [10]).header, .committed none]

end SchedulerImpl

end Loki.Fisco
