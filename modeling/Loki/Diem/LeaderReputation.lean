import Loki.Foundation.Checked
import Loki.Diem.BlockStorage.BlockTree

/-!
# Proposers elected by committed history

`consensus/src/liveness/leader_reputation.rs`.  The weight of a candidate depends on the latest
committed blocks up to a target round, which are read from the database and kept in a window.  The
window is used again when its newest event is of the target round, or is the latest version.

The hash of a round is a parameter, and so are the answers of the database.
-/

namespace Loki.Diem

open Loki.Foundation List Nat Prod Option

structure NewBlockEvent where
  round : Nat
  proposer : AccountAddress
  votes : List AccountAddress
  timestamp : Nat
  deriving DecidableEq

/-- The reads of the database: the latest events with their versions, newest first and up to a
limit, and the latest version. -/
structure DbReader where
  getEvents : Nat → Except String (List (Nat × NewBlockEvent))
  getLatestVersion : Except String Nat

structure DiemDBBackend where
  windowSize : Nat
  window : List (Nat × NewBlockEvent)

namespace DiemDBBackend

def new (windowSize : Nat) : DiemDBBackend where
  windowSize := windowSize
  window := []

def buffer : Nat := 10

variable (s : DiemDBBackend) (db : DbReader) (targetRound : Nat)

def refreshWindow : Except String DiemDBBackend := do
  let events ← db.getEvents (s.windowSize + buffer)
  let result := events.foldl (fun result entry =>
    if entry.2.round ≤ targetRound ∧ result.length < s.windowSize then result ++ [entry]
    else result) []
  pure { s with window := result }

def known : Nat × Nat :=
  match s.window.head? with
  | some (version, event) => (version, event.round)
  | none => (0, 0)

def getBlockMetadata : List NewBlockEvent × DiemDBBackend :=
  let (knownVersion, knownRound) := s.known
  let latestVersion := db.getLatestVersion.toOption.getD 0
  if knownRound = targetRound ∨ knownVersion = latestVersion then
    (s.window.map snd, s)
  else
    match s.refreshWindow db targetRound with
    | .ok s => (s.window.map snd, s)
    | .error _ => ([], s)

end DiemDBBackend

structure ActiveInactiveHeuristic where
  activeWeight : Nat
  inactiveWeight : Nat

def ActiveInactiveHeuristic.getWeights (heuristic : ActiveInactiveHeuristic)
    (candidates : List Author) (history : List NewBlockEvent) : List Nat :=
  let active := history.flatMap fun event => event.proposer :: event.votes
  candidates.map fun author =>
    if author ∈ active then heuristic.activeWeight else heuristic.inactiveWeight

structure LeaderReputation where
  proposers : List Author
  getWeights : List Author → List NewBlockEvent → List Nat

namespace LeaderReputation

def cumulate : List Nat → Nat → Outcome (List Nat × Nat)
  | [], totalWeight => pure ([], totalWeight)
  | w :: weights, totalWeight => do
    let totalWeight ← checkedAdd u64Bound totalWeight w
    let (rest, final) ← cumulate weights totalWeight
    pure (totalWeight :: rest, final)

/-- `binary_search_by` on `left..right` for a comparator that never answers `Equal`. -/
def binarySearch (less : Nat → Bool) : Nat → Nat → Nat → Nat
  | 0, left, _ => left
  | fuel + 1, left, right =>
    if left < right then
      let mid := left + (right - left) / 2
      if less mid then binarySearch less fuel (mid + 1) right else binarySearch less fuel left mid
    else left

def chosenIndex (weights : List Nat) (chosenWeight : Nat) : Nat :=
  binarySearch (fun i => weights.getD i 0 ≤ chosenWeight) weights.length 0 weights.length

variable (s : LeaderReputation) (next : Nat → Nat) (round : Nat)

def elect (slidingWindow : List NewBlockEvent) : Outcome Author := do
  let weights := s.getWeights s.proposers slidingWindow
  ensure (weights.length = s.proposers.length) (.panic "assertion failed: (left == right)")
  let (weights, totalWeight) ← cumulate weights 0
  ensure (totalWeight ≠ 0)
    (.panic "attempt to calculate the remainder with a divisor of zero")
  let chosenWeight := next round % totalWeight
  okOr s.proposers[chosenIndex weights chosenWeight]? (.panic "index out of bounds")

def targetRound : Nat :=
  if 4 ≤ round then round - 4 else 0

def getValidProposer (backend : DiemDBBackend)
    (db : DbReader) (round : Nat) : Outcome Author × DiemDBBackend :=
  let (slidingWindow, backend) := backend.getBlockMetadata db (targetRound round)
  (s.elect next round slidingWindow, backend)

end LeaderReputation

/-! ## Ledgers -/

structure Ledger where
  latestVersion : Nat
  events : List (Nat × NewBlockEvent)
  ordered : events.Pairwise fun newer older => older.1 < newer.1 ∧ older.2.round < newer.2.round
  /-- Version 0 is the genesis transaction, and round 0 its block, which has no event. -/
  bounded : ∀ entry ∈ events, 0 < entry.1 ∧ entry.1 ≤ latestVersion ∧ 0 < entry.2.round

namespace Ledger

def reader (ledger : Ledger) : DbReader where
  getEvents limit := .ok (ledger.events.take limit)
  getLatestVersion := .ok ledger.latestVersion

structure Extends (ledger ledger' : Ledger) : Prop where
  events : ledger.events <:+ ledger'.events
  latestVersion : ledger.latestVersion ≤ ledger'.latestVersion

def recent (ledger : Ledger) (windowSize targetRound : Nat) : List (Nat × NewBlockEvent) :=
  (ledger.events.filter (·.2.round ≤ targetRound)).take windowSize

def above (ledger : Ledger) (targetRound : Nat) : Nat :=
  ledger.events.countP (targetRound < ·.2.round)

variable {ledger ledger' : Ledger} {targetRound windowSize : Nat} {targetRound' : Nat}
  {newest entry : Nat × NewBlockEvent}

theorem recent_congr (h : ∀ entry ∈ ledger.events,
      entry.2.round ≤ targetRound ↔ entry.2.round ≤ targetRound') :
    ledger.recent windowSize targetRound = ledger.recent windowSize targetRound' := by
  unfold recent
  rw [filter_congr fun entry hentry => decide_eq_decide.mpr (h entry hentry)]

section

variable (h : (ledger.recent windowSize targetRound).head? = some newest)

include h

theorem round_le_of_head?_recent
    (hentry : entry ∈ ledger.events) (hround : entry.2.round ≤ targetRound) :
    entry.2.round ≤ newest.2.round := by
  unfold recent at h
  have hordered := ledger.ordered.sublist
    (filter_sublist (p := fun entry => decide (entry.2.round ≤ targetRound)))
  have hmem : entry ∈ ledger.events.filter (·.2.round ≤ targetRound) := by simp [hentry, hround]
  cases hfilter : ledger.events.filter (·.2.round ≤ targetRound) with
  | nil => simp [hfilter] at hmem
  | cons head =>
    rw [hfilter] at h hordered hmem
    have hhead : head = newest := by
      cases windowSize with
      | zero => simp at h
      | succ => simpa using h
    subst hhead
    rcases mem_cons.mp hmem with rfl | hmem
    · exact le_rfl
    · exact ((pairwise_cons.mp hordered).1 entry hmem).2.le

theorem mem_of_head?_recent : newest ∈ ledger.events ∧ newest.2.round ≤ targetRound := by
  have hmem := mem_of_mem_take (mem_of_mem_head? (mem_def.mpr h))
  simpa using mem_filter.mp hmem

end

theorem Extends.newer (h : ledger.Extends ledger') :
    ∃ new, ledger'.events = new ++ ledger.events ∧ ∀ entry ∈ new, ∀ older ∈ ledger.events,
      older.1 < entry.1 ∧ older.2.round < entry.2.round := by
  obtain ⟨new, hnew⟩ := h.events
  have hordered := ledger'.ordered
  rw [← hnew] at hordered
  exact ⟨new, hnew.symm, (pairwise_append.mp hordered).2.2⟩

theorem round_le_of_version_le {entry' : Nat × NewBlockEvent} (hentry : entry ∈ ledger.events)
    (hentry' : entry' ∈ ledger.events) (hle : entry.1 ≤ entry'.1) :
    entry.2.round ≤ entry'.2.round := by
  refine Pairwise.forall_of_forall_of_flip
    (R := fun a b : Nat × NewBlockEvent => a.1 ≤ b.1 → a.2.round ≤ b.2.round) ?_ ?_ ?_
    hentry hentry' hle
  · exact fun _ _ _ => le_rfl
  · exact ledger.ordered.imp fun h hle => absurd h.1 (not_lt.mpr hle)
  · exact ledger.ordered.imp fun h _ => h.2.le

theorem recent_zero : ledger.recent windowSize 0 = [] := by
  have hfilter : ledger.events.filter (·.2.round ≤ 0) = [] := by
    simp only [filter_eq_nil_iff, decide_eq_true_eq]
    intro entry hentry
    have := (ledger.bounded entry hentry).2.2
    omega
  rw [recent, hfilter, take_nil]

theorem recent_of_latestVersion_zero (h : ledger.latestVersion = 0) :
    ledger.recent windowSize targetRound = [] := by
  have hevents : ledger.events = [] := by
    apply eq_nil_iff_forall_not_mem.mpr
    intro entry hentry
    have := ledger.bounded entry hentry
    omega
  simp [recent, hevents]

section

variable (h : ledger.Extends ledger')
  (hnewest : (ledger.recent windowSize targetRound).head? = some newest)

include h hnewest

/-- The window is what is found again up to the round of its newest event. -/
theorem recent_of_known_round :
    ledger'.recent windowSize newest.2.round = ledger.recent windowSize targetRound := by
  obtain ⟨hmem, _⟩ := mem_of_head?_recent hnewest
  obtain ⟨new, hnew, hnewer⟩ := h.newer
  have hempty : new.filter (·.2.round ≤ newest.2.round) = [] := by
    simp only [filter_eq_nil_iff, decide_eq_true_eq, not_le]
    intro entry hentry
    exact (hnewer entry hentry newest hmem).2
  have hsame : ledger.recent windowSize newest.2.round =
      ledger.recent windowSize targetRound := by
    apply recent_congr
    intro _ hentry
    constructor
    · intro hentryRound
      omega
    · exact round_le_of_head?_recent hnewest hentry
  rw [← hsame, recent, recent, hnew, filter_append, hempty, nil_append]

theorem recent_of_known_version
    (hversion : newest.1 = ledger'.latestVersion) (hle : targetRound ≤ targetRound') :
    ledger'.recent windowSize targetRound' = ledger.recent windowSize targetRound := by
  obtain ⟨hmem, _⟩ := mem_of_head?_recent hnewest
  rw [← recent_of_known_round h hnewest]
  apply recent_congr
  intro entry hentry
  have hbound := (ledger'.bounded entry hentry).2.1
  have := round_le_of_version_le hentry (h.events.subset hmem) (by omega)
  omega

end

theorem take_filter_of_countP_le {events : List (Nat × NewBlockEvent)} {buffer}
    (hordered : events.Pairwise fun newer older => older.2.round < newer.2.round)
    (h : events.countP (targetRound < ·.2.round) ≤ buffer) :
    ((events.take (windowSize + buffer)).filter (·.2.round ≤ targetRound)).take windowSize =
      (events.filter (·.2.round ≤ targetRound)).take windowSize := by
  induction events generalizing buffer with
  | nil => simp
  | cons entry events ih =>
    obtain ⟨hnewest, hordered⟩ := pairwise_cons.mp hordered
    by_cases hround : entry.2.round ≤ targetRound
    · -- no event is above the target, so that nothing is filtered out
      have hall : ∀ entry' ∈ entry :: events, entry'.2.round ≤ targetRound := by
        intro entry' hentry'
        rcases mem_cons.mp hentry' with rfl | hentry'
        · exact hround
        · exact (hnewest entry' hentry').le.trans hround
      have hfilter : ∀ n, ((entry :: events).take n).filter (·.2.round ≤ targetRound) =
          (entry :: events).take n := by
        intro n
        apply filter_eq_self.mpr
        intro entry' hentry'
        simpa using hall entry' (mem_of_mem_take hentry')
      have hfull := hfilter (entry :: events).length
      rw [take_length] at hfull
      rw [hfilter, hfull, take_take, min_eq_left (le_add_right _ _)]
    · rw [countP_cons_of_pos (by simpa using hround)] at h
      obtain ⟨_, rfl⟩ : ∃ rest, buffer = rest + 1 := ⟨buffer - 1, by omega⟩
      rw [← add_assoc, take_succ_cons, filter_cons_of_neg (by simpa using hround),
        filter_cons_of_neg (by simpa using hround)]
      exact ih hordered (by omega)

end Ledger

open Ledger

/-! ## Queries -/

namespace DiemDBBackend

variable {s : DiemDBBackend} {ledger : Ledger} {targetRound windowSize : Nat}
  {queries : List (Ledger × Nat)} {last : Ledger × Nat}

theorem foldl_push_eq (events result : List (Nat × NewBlockEvent))
    (h : result.length ≤ windowSize) :
    events.foldl (fun result entry =>
        if entry.2.round ≤ targetRound ∧ result.length < windowSize then result ++ [entry]
        else result) result =
      result ++ (events.filter (·.2.round ≤ targetRound)).take (windowSize - result.length) := by
  induction events generalizing result with
  | nil => simp
  | cons entry _ ih =>
    rw [foldl_cons]
    by_cases hround : entry.2.round ≤ targetRound
    · by_cases hlt : result.length < windowSize
      · obtain ⟨room, hroom⟩ : ∃ room, windowSize - result.length = room + 1 :=
          ⟨windowSize - result.length - 1, by omega⟩
        have hnext : windowSize - (result ++ [entry]).length = room := by
          simp
          omega
        rw [if_pos ⟨hround, hlt⟩, ih _ (by simp; omega), hnext, hroom,
          filter_cons_of_pos (by simpa using hround), take_succ_cons,
          append_assoc, singleton_append]
      · have hroom : windowSize - result.length = 0 := by omega
        rw [if_neg (by tauto), ih _ h, hroom, take_zero, take_zero]
    · rw [if_neg (by tauto), ih _ h, filter_cons_of_neg (by simpa using hround)]

theorem refreshWindow_reader (s : DiemDBBackend) (ledger : Ledger) (targetRound : Nat) :
    s.refreshWindow ledger.reader targetRound = .ok { s with
      window := ((ledger.events.take (s.windowSize + buffer)).filter
        (·.2.round ≤ targetRound)).take s.windowSize } := by
  unfold refreshWindow
  simp only [reader, bind, Except.bind, pure, Except.pure]
  rw [foldl_push_eq _ _ (zero_le _)]
  rfl

theorem fetched_eq_recent (h : ledger.above targetRound ≤ buffer) :
    ((ledger.events.take (windowSize + buffer)).filter (·.2.round ≤ targetRound)).take windowSize =
      ledger.recent windowSize targetRound :=
  take_filter_of_countP_le (ledger.ordered.imp And.right) h

theorem refreshWindow_recent (h : ledger.above targetRound ≤ buffer) :
    s.refreshWindow ledger.reader targetRound =
      .ok { s with window := ledger.recent s.windowSize targetRound } := by
  rw [refreshWindow_reader, fetched_eq_recent h]

/-- The window is empty, or was read for a target no higher from a ledger before this one. -/
def ReadBefore (s : DiemDBBackend) (ledger : Ledger) (targetRound : Nat) : Prop :=
  s.window = [] ∨ ∃ (earlier : Ledger) (target : Nat),
    s.window = earlier.recent s.windowSize target ∧
    earlier.Extends ledger ∧ target ≤ targetRound

theorem ReadBefore.recent_of_known (h : s.ReadBefore ledger targetRound)
    (hknown : s.known.2 = targetRound ∨ s.known.1 = ledger.latestVersion) :
    ledger.recent s.windowSize targetRound = s.window := by
  cases hwindow : s.window with
  | nil =>
    simp only [known, hwindow, head?_nil] at hknown
    rcases hknown with rfl | hversion
    · exact recent_zero
    · exact recent_of_latestVersion_zero hversion.symm
  | cons newest =>
    simp only [known, hwindow, head?_cons] at hknown
    rcases h with h | ⟨earlier, target, hrecent, hextends, hle⟩
    · rw [hwindow] at h
      cases h
    · have hnewest : (earlier.recent s.windowSize target).head? = some newest := by
        rw [← hrecent, hwindow, head?_cons]
      rw [← hwindow, hrecent]
      rcases hknown with rfl | hversion
      · exact recent_of_known_round hextends hnewest
      · exact recent_of_known_version hextends hnewest hversion hle

theorem getBlockMetadata_of_readBefore (h : s.ReadBefore ledger targetRound)
    (habove : ledger.above targetRound ≤ buffer) :
    s.getBlockMetadata ledger.reader targetRound =
      ((ledger.recent s.windowSize targetRound).map snd,
        { s with window := ledger.recent s.windowSize targetRound }) := by
  by_cases hknown : s.known.2 = targetRound ∨ s.known.1 = ledger.latestVersion
  · rw [h.recent_of_known hknown]
    exact if_pos hknown
  · simp only [getBlockMetadata, refreshWindow_recent habove]
    exact if_neg hknown

def run (s : DiemDBBackend) (queries : List (Ledger × Nat)) : DiemDBBackend :=
  queries.foldl (fun s query => (s.getBlockMetadata query.1.reader query.2).2) s

/-- The ledger is extended between queries, targets do not decrease, and none is further from the
latest commit than the buffer. -/
structure Orderly (queries : List (Ledger × Nat)) : Prop where
  increasing : queries.Pairwise fun query later => query.1.Extends later.1 ∧ query.2 ≤ later.2
  near : ∀ query ∈ queries, query.1.above query.2 ≤ buffer

theorem Orderly.init {queries' : List (Ledger × Nat)} (h : Orderly (queries ++ queries')) :
    Orderly queries where
  increasing := (pairwise_append.mp h.increasing).1
  near := fun query hquery => h.near query (mem_append_left _ hquery)

theorem Orderly.before_last {query : Ledger × Nat} (h : Orderly (queries ++ [last]))
    (hquery : query ∈ queries) : query.1.Extends last.1 ∧ query.2 ≤ last.2 :=
  (pairwise_append.mp h.increasing).2.2 query hquery last (mem_singleton_self _)

theorem run_readBefore (h : Orderly (queries ++ [last])) :
    ((new windowSize).run queries).windowSize = windowSize ∧
      ((new windowSize).run queries).ReadBefore last.1 last.2 := by
  induction queries using reverseRecOn generalizing last with
  | nil => exact ⟨rfl, .inl rfl⟩
  | append_singleton queries query ih =>
    obtain ⟨hsize, hbefore⟩ := ih h.init
    have hnear := h.near query (by simp)
    have hstep : (new windowSize).run (queries ++ [query]) =
        { (new windowSize).run queries with
          window := query.1.recent ((new windowSize).run queries).windowSize query.2 } := by
      rw [run, foldl_concat]
      exact congrArg snd (getBlockMetadata_of_readBefore hbefore hnear)
    rw [hstep]
    obtain ⟨hextends, hle⟩ := h.before_last (mem_append_right queries (mem_singleton_self query))
    exact ⟨hsize, .inr ⟨query.1, query.2, rfl, hextends, hle⟩⟩

end DiemDBBackend

namespace LeaderReputation

open DiemDBBackend

/-- In an orderly run a query does what reading the window again would do: it answers with the most
recent events up to the target, of those that are fetched.  Replicas with the same ledger then
elect the same proposer, whatever each of them asked before. -/
theorem run_window (windowSize : Nat) (queries : List (Ledger × Nat)) (ledger : Ledger)
    (target : Nat) (h : Orderly (queries ++ [(ledger, target)])) :
    ((new windowSize).run queries).refreshWindow ledger.reader target =
        .ok (((new windowSize).run queries).getBlockMetadata ledger.reader target).2 ∧
    (((new windowSize).run queries).getBlockMetadata ledger.reader target).1 =
        (((ledger.events.take (windowSize + buffer)).filter
          (·.2.round ≤ target)).take windowSize).map snd ∧
    ∀ queries', Orderly (queries' ++ [(ledger, target)]) →
      ∀ (election : LeaderReputation) (next : Nat → Nat) (round : Nat), targetRound round = target →
        (election.getValidProposer next ((new windowSize).run queries) ledger.reader round).1 =
          (election.getValidProposer next ((new windowSize).run queries') ledger.reader
            round).1 := by
  have hnear : ledger.above target ≤ buffer := by simpa using h.near (ledger, target) (by simp)
  have hanswer : ∀ {queries'}, Orderly (queries' ++ [(ledger, target)]) →
      ((new windowSize).run queries').getBlockMetadata ledger.reader target =
        ((ledger.recent windowSize target).map snd,
          { windowSize := windowSize, window := ledger.recent windowSize target }) := by
    intro queries' h'
    obtain ⟨hsize, hbefore⟩ := @run_readBefore windowSize _ _ h'
    rw [getBlockMetadata_of_readBefore hbefore hnear, hsize]
  refine ⟨?_, ?_, fun _ h' _ _ _ hround => ?_⟩
  · rw [hanswer h, refreshWindow_recent hnear, (run_readBefore h).1]
  · rw [hanswer h, fetched_eq_recent hnear]
  · simp [getValidProposer, hround, hanswer h, hanswer h']

def blockOf (round : Nat) (proposer : Author) : NewBlockEvent where
  round := round
  proposer := proposer
  votes := []
  timestamp := 0

def fifthRound : Ledger where
  latestVersion := 1
  events := [(1, blockOf 5 1)]
  ordered := by decide
  bounded := by decide

def sixthRound : Ledger where
  latestVersion := 2
  events := [(2, blockOf 6 2), (1, blockOf 5 1)]
  ordered := by decide
  bounded := by decide

theorem run_window_sixthRound :
    Orderly ([(fifthRound, 5)] ++ [(sixthRound, 6)]) ∧
    (((new 2).run [(fifthRound, 5)]).getBlockMetadata sixthRound.reader 6).1 =
      (((sixthRound.events.take (2 + buffer)).filter
        (·.2.round ≤ 6)).take 2).map snd := by
  have horderly : Orderly ([(fifthRound, 5)] ++ [(sixthRound, 6)]) := by
    refine ⟨?_, by decide⟩
    simp only [singleton_append, pairwise_pair]
    exact ⟨⟨⟨[(2, blockOf 6 2)], rfl⟩, by decide⟩, by decide⟩
  exact ⟨horderly, (run_window 2 [(fifthRound, 5)] sixthRound 6 horderly).2.1⟩

def twoCandidates : LeaderReputation where
  proposers := [1, 2]
  getWeights := ActiveInactiveHeuristic.getWeights { activeWeight := 10, inactiveWeight := 1 }

def twelfthRound : Ledger where
  latestVersion := 13
  events := (range 12).reverse.map fun i => (i + 1, blockOf (i + 1) 1)
  ordered := by decide
  bounded := by decide

def firstRound : Ledger where
  latestVersion := 1
  events := [(1, blockOf 1 1)]
  ordered := by decide
  bounded := by decide

/-- A replica that has asked for round 10 and asks for round 9 takes a block of round 6 into account
that it should not, and elects another proposer than a replica that asks for round 9 only.  A
window is also kept when the events that it holds are no longer fetched. -/
theorem run_window_stale :
    (((new 2).run [(sixthRound, targetRound 10)]).getBlockMetadata sixthRound.reader
      (targetRound 9)).1 = [blockOf 6 2, blockOf 5 1] ∧
    (((new 2).run [(sixthRound, targetRound 10)]).refreshWindow sixthRound.reader
      (targetRound 9)).toOption.map window = some [(1, blockOf 5 1)] ∧
    (twoCandidates.getValidProposer (fun _ => 15) ((new 2).run [(sixthRound, targetRound 10)])
      sixthRound.reader 9).1.toOption = some 2 ∧
    (twoCandidates.getValidProposer (fun _ => 15) (new 2) sixthRound.reader 9).1.toOption =
      some 1 ∧
    (((new 1).run [(firstRound, 1)]).getBlockMetadata twelfthRound.reader 1).1 = [blockOf 1 1] ∧
    (((new 1).run [(firstRound, 1)]).refreshWindow twelfthRound.reader 1).toOption.map window =
      some [] := by
  decide

/-! ## The weighted choice -/

theorem binarySearch_eq {less : Nat → Bool} {k fuel left right : Nat} (hfuel : right - left ≤ fuel)
    (hleft : left ≤ k) (hright : k ≤ right) (hless : ∀ i < right, less i = true ↔ i < k) :
    binarySearch less fuel left right = k := by
  induction fuel generalizing left right with
  | zero =>
    simp only [binarySearch]
    omega
  | succ _ ih =>
    simp only [binarySearch]
    split_ifs with hlt hmid
    · rw [hless _ (by omega)] at hmid
      exact ih (by omega) hmid hright hless
    · rw [hless _ (by omega)] at hmid
      exact ih (by omega) hleft (by omega) fun i _ => hless i (by omega)
    · omega

theorem cumulate_eq {weights : List Nat} {start : Nat} (h : start + weights.sum < u64Bound) :
    cumulate weights start = .ok ((range weights.length).map fun i =>
      start + (weights.take (i + 1)).sum, start + weights.sum) := by
  induction weights generalizing start with
  | nil => rfl
  | cons _ _ ih =>
    rw [sum_cons, ← add_assoc] at h
    simp only [cumulate, checkedAdd_of_lt (lt_of_le_of_lt (le_add_right _ _) h)]
    simp [ih h, range_succ_eq_map, Function.comp_def, add_assoc]

/-- The sums before and after the proposer enclose `c`. -/
def Bucket (weights : List Nat) (c i : Nat) : Prop :=
  i < weights.length ∧ (weights.take i).sum ≤ c ∧ c < (weights.take (i + 1)).sum

theorem exists_bucket {weights : List Nat} {c : Nat} (hc : c < weights.sum) :
    ∃ i, Bucket weights c i := by
  induction weights generalizing c with
  | nil => simp at hc
  | cons w _ ih =>
    rw [sum_cons] at hc
    by_cases hw : c < w
    · exact ⟨0, by simp [Bucket, hw]⟩
    · obtain ⟨i, hi, _, _⟩ := @ih (c - w) (by omega)
      refine ⟨i + 1, by simpa using hi, ?_, ?_⟩
      · rw [take_succ_cons, sum_cons]
        omega
      · rw [take_succ_cons, sum_cons]
        omega

namespace Bucket

variable {weights : List Nat} {c i : Nat} (h : Bucket weights c i)

include h

theorem le_iff (j : Nat) : (weights.take (j + 1)).sum ≤ c ↔ j < i := by
  constructor
  · intro _
    by_contra hij
    have hmono : (weights.take (i + 1)).sum ≤ (weights.take (j + 1)).sum :=
      weights.monotone_sum_take (by omega)
    have hlt := h.2.2
    omega
  · intro hij
    exact (weights.monotone_sum_take hij).trans h.2.1

theorem chosenIndex_eq : chosenIndex ((range weights.length).map fun i =>
    (weights.take (i + 1)).sum) c = i := by
  refine binarySearch_eq (by simp) (zero_le _) (by simpa using h.1.le) fun j hj => ?_
  rw [length_map, length_range] at hj
  simp only [getD_eq_getElem?_getD, getElem?_map, getElem?_range hj, map_some,
    getD_some, h.le_iff, decide_eq_true_eq]

end Bucket

theorem getValidProposer_weighted {s : LeaderReputation} {next backend db round weights}
    (hweights : s.getWeights s.proposers (backend.getBlockMetadata db (targetRound round)).1 =
      weights) (hlength : weights.length = s.proposers.length) (hpos : 0 < weights.sum)
    (hlt : weights.sum < u64Bound) :
    ∃ sums, cumulate weights 0 = .ok (sums, weights.sum) ∧
      (∃ i author, s.proposers[i]? = some author ∧ Bucket weights (next round % weights.sum) i ∧
        chosenIndex sums (next round % weights.sum) = i ∧
        (s.getValidProposer next backend db round).1 = .ok author) ∧
      ∀ i (hi : i < weights.length),
        ((Finset.range weights.sum).filter (chosenIndex sums · = i)).card = weights[i] := by
  have hcumulate := @cumulate_eq weights 0 (by simpa using hlt)
  simp only [zero_add] at hcumulate
  refine ⟨_, hcumulate, ?_, fun i hi => ?_⟩
  · obtain ⟨i, h⟩ := exists_bucket (mod_lt (next round) hpos)
    have hauthor := getElem?_eq_getElem (hlength ▸ h.1)
    have hindex := h.chosenIndex_eq
    refine ⟨i, _, hauthor, h, hindex, ?_⟩
    rw [hlength] at hindex
    simp [getValidProposer, elect, hweights, hlength, hcumulate, hpos.ne', hindex]
  · have hbucket : (Finset.range weights.sum).filter
        (chosenIndex ((range weights.length).map fun i => (weights.take (i + 1)).sum) · = i) =
          Finset.Ico (weights.take i).sum (weights.take (i + 1)).sum := by
      ext c
      simp only [Finset.mem_filter, Finset.mem_range, Finset.mem_Ico]
      constructor
      · rintro ⟨hc, rfl⟩
        obtain ⟨k, h⟩ := exists_bucket hc
        rw [h.chosenIndex_eq]
        exact h.2
      · intro hc
        have hle := (take_sublist (i + 1) weights).sum_le_sum (by simp)
        exact ⟨hc.2.trans_le hle, Bucket.chosenIndex_eq ⟨hi, hc⟩⟩
    rw [hbucket, Nat.card_Ico, sum_take_succ _ _ hi, Nat.add_sub_cancel_left]

theorem getValidProposer_weighted_ninthRound :
    ∃ i author, [1, 2][i]? = some author ∧ Bucket [10, 1] (15 % 11) i ∧
      (twoCandidates.getValidProposer (fun _ => 15) (new 2) sixthRound.reader 9).1 =
        .ok author := by
  obtain ⟨_, -, ⟨i, author, hauthor, hbucket, -, heq⟩, -⟩ := @getValidProposer_weighted
    twoCandidates (fun _ => 15) (new 2) sixthRound.reader 9 [10, 1] (by decide) rfl (by decide)
    (by decide)
  exact ⟨i, author, hauthor, hbucket, heq⟩

/-! ## One proposal for each leader and round -/

variable (s : LeaderReputation) (next : Nat → Nat)

structure Proposal where
  author : Option Author
  round : Nat
  id : HashValue

def Proposal.Follows (later earlier : Proposal) : Prop :=
  earlier.round ≤ later.round ∧
    (earlier.author = later.author → earlier.round = later.round → earlier.id = later.id)

/-- What an election remembers: its window, and the round and the ids of `already_proposed`. -/
structure Memory where
  backend : DiemDBBackend
  round : Nat := 0
  proposed : Author → Option HashValue := fun _ => none

/-- A call in which `get_valid_proposer` panics accepts nothing. -/
def isValidProposal (m : Memory) (db : DbReader) (block : Proposal) : Bool × Memory :=
  match block.author with
  | none => (false, m)
  | some author =>
    let election := s.getValidProposer next m.backend db block.round
    let m := { m with backend := election.2 }
    if election.1.toOption ≠ some author then (false, m)
    else if m.round < block.round then
      (true, { m with
        round := block.round
        proposed := Function.update (fun _ => none) author (some block.id) })
    else if block.round < m.round ∨ (m.proposed author).any (· ≠ block.id) then (false, m)
    else (true, { m with proposed := Function.update m.proposed author (some block.id) })

/-- The memory after the calls and the accepted blocks, the latest first. -/
def propose (windowSize : Nat) (calls : List (DbReader × Proposal)) : Memory × List Proposal :=
  calls.foldl (fun (m, accepted) (db, block) =>
    ((s.isValidProposal next m db block).2,
      if (s.isValidProposal next m db block).1 then block :: accepted else accepted))
    ({ backend := new windowSize }, [])

structure Remembers (m : Memory) (accepted : List Proposal) : Prop where
  once : accepted.Pairwise Proposal.Follows
  round_le : ∀ block ∈ accepted, block.round ≤ m.round
  proposed : ∀ block ∈ accepted, block.round = m.round →
    ∃ author, block.author = some author ∧ m.proposed author = some block.id

variable {s next}

theorem Remembers.isValidProposal {m m' accepted db block valid} (h : Remembers m accepted)
    (heq : s.isValidProposal next m db block = (valid, m')) :
    Remembers m' (if valid then block :: accepted else accepted) := by
  simp only [LeaderReputation.isValidProposal] at heq
  split at heq
  · cases heq
    exact h
  · next author hauthor =>
    split_ifs at heq with _ hlt hold <;> cases heq
    · exact { h with }
    · have hle {b} (hb : b ∈ accepted) : b.round < block.round :=
        lt_of_le_of_lt (h.round_le b hb) hlt
      constructor
      · exact .cons (fun b hb => ⟨(hle hb).le, fun _ hr => absurd hr (hle hb).ne⟩) h.once
      · exact forall_mem_cons.mpr ⟨le_rfl, fun b hb => (hle hb).le⟩
      · exact forall_mem_cons.mpr ⟨fun _ => ⟨author, hauthor, by simp⟩,
          fun b hb hr => absurd hr (hle hb).ne⟩
    · exact { h with }
    · obtain ⟨_, hany⟩ := not_or.mp hold
      have hround : block.round = m.round := by omega
      have hsame {b} (hb : b ∈ accepted) (hr : b.round = m.round) (ha : b.author = some author) :
          b.id = block.id := by
        obtain ⟨a, ha', hid⟩ := h.proposed b hb hr
        cases ha'.symm.trans ha
        simpa [hid] using hany
      constructor
      · exact .cons (fun b hb => ⟨(h.round_le b hb).trans hround.ge, fun ha hr =>
          hsame hb (hr.trans hround) (ha.trans hauthor)⟩) h.once
      · exact forall_mem_cons.mpr ⟨hround.le, h.round_le⟩
      · refine forall_mem_cons.mpr ⟨fun _ => ⟨author, hauthor, by simp⟩, ?_⟩
        intro b hb hr
        obtain ⟨a, ha, hid⟩ := h.proposed b hb hr
        refine ⟨a, ha, ?_⟩
        by_cases heq : a = author
        · subst heq
          simp [hsame hb hr ha]
        · simpa [heq] using hid

theorem Remembers.again {m accepted db block} (h : Remembers m accepted) (hblock : block ∈ accepted)
    (hround : block.round = m.round) : (s.isValidProposal next m db block).1 = true ↔
      (s.getValidProposer next m.backend db block.round).1.toOption = block.author := by
  obtain ⟨_, hauthor, _⟩ := h.proposed block hblock hround
  simp only [LeaderReputation.isValidProposal, hauthor, hround]
  split_ifs <;> simp_all

/-- A block is accepted again exactly when `get_valid_proposer` still answers with its author. -/
theorem propose_once (s : LeaderReputation) (next windowSize calls) :
    let (m, accepted) := s.propose next windowSize calls
    accepted.Pairwise Proposal.Follows ∧
    ∀ block ∈ accepted, block.round = m.round → ∀ db,
      (s.isValidProposal next m db block).1 = true ↔
        (s.getValidProposer next m.backend db block.round).1.toOption = block.author := by
  have h : Remembers (s.propose next windowSize calls).1 (s.propose next windowSize calls).2 := by
    induction calls using reverseRecOn with
    | nil => constructor <;> simp [propose]
    | append_singleton _ _ ih =>
      rw [propose, foldl_append]
      exact ih.isValidProposal rfl
  exact ⟨h.once, fun _ hblock hround _ => h.again hblock hround⟩

/-- Round 10 replaces the window, and the block of round 9 is refused when it comes again. -/
theorem propose_refuses_again : let block : Proposal := ⟨some 1, 9, 0⟩
    let (m, accepted) := twoCandidates.propose (fun _ => 15) 2
      [(sixthRound.reader, block), (sixthRound.reader, ⟨some 1, 10, 0⟩)]
    accepted.map (·.round) = [9] ∧ m.round = 9 ∧
      (twoCandidates.isValidProposal (fun _ => 15) m sixthRound.reader block).1 = false := by
  decide

end LeaderReputation

end Loki.Diem
