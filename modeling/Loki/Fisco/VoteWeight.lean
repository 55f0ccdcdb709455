import Mathlib.Algebra.Order.BigOperators.Group.Finset
import Loki.Fisco.Moves

/-!
# Recorded weights

A vote cache records for each hash the weight of its senders.  As a property of the cache alone the
record is exact.  What it records are the senders of the view the node is in, as long as every vote
is of the node's view when it comes in: votes of later views are counted at once, and a vote that
is sent again for a later view is dropped.
-/

namespace Loki.Fisco

open Finset PBFTCache Nat Option

variable (t : Tally) (nodes : List ConsensusNode)

def nodeWeight (i : Nat) : Nat := (nodes[i]?.map (·.weight)).getD 0

theorem sum_nodeWeight_range :
    ∑ i ∈ range nodes.length, nodeWeight nodes i = (nodes.map (·.weight)).sum := by
  induction nodes with
  | nil => simp
  | cons node nodes ih =>
    have hshift : ∀ i, nodeWeight (node :: nodes) (i + 1) = nodeWeight nodes i := by
      simp [nodeWeight]
    rw [List.length_cons, sum_range_succ', sum_congr rfl fun i _ => hshift i, ih]
    simp [nodeWeight, add_comm]

theorem sum_nodeWeight_le (S : Finset Nat) :
    ∑ i ∈ S, nodeWeight nodes i ≤ (nodes.map (·.weight)).sum := by
  calc ∑ i ∈ S, nodeWeight nodes i
      = ∑ i ∈ S with i < nodes.length, nodeWeight nodes i := by
        refine (sum_filter_of_ne fun i _ hi => ?_).symm
        by_contra hlt
        exact hi (by simp [nodeWeight, List.getElem?_eq_none (Nat.le_of_not_lt hlt)])
    _ ≤ ∑ i ∈ range nodes.length, nodeWeight nodes i :=
        sum_le_sum_of_subset fun i hi => by simpa using (mem_filter.mp hi).2
    _ = (nodes.map (·.weight)).sum := sum_nodeWeight_range nodes

namespace VoteCache

def senders (votes : VoteCache) (hash : HashType) : List Nat :=
  (votes.cachedReq.filter (·.hash = hash)).map (·.generatedFrom)

/-- Each sender is cached once for a hash, and the recorded weight is that of the senders. -/
structure Exact (nodes : List ConsensusNode) (votes : VoteCache) : Prop where
  nodup : ∀ hash, (votes.senders hash).Nodup
  weight : ∀ hash, votes.weightInfo[hash]?.getD 0 =
    ((votes.senders hash).map (nodeWeight nodes)).sum % uint64

variable {config : PBFTConfig} {votes : VoteCache} {msg : PBFTMessage} {index : Nat}

theorem cached_iff_mem_senders (hash : HashType) (i : Nat) :
    votes.cached hash i = true ↔ i ∈ votes.senders hash := by
  simp [cached, senders, and_assoc]

theorem addCache_cases (config) (index : Nat) (votes : VoteCache) (msg : PBFTMessage) :
    (votes.addCache config index msg = votes ∧
      (msg.index ≠ index ∨ msg.generatedFrom ∈ votes.senders msg.hash ∨
        config.consensusNodeList[msg.generatedFrom]? = none)) ∨
    msg.index = index ∧ msg.generatedFrom ∉ votes.senders msg.hash ∧
      msg.generatedFrom < config.consensusNodeList.length ∧ votes.addCache config index msg =
        { cachedReq := votes.cachedReq.orderedInsert (·.generatedFrom ≤ ·.generatedFrom) msg
          weightInfo := votes.weightInfo.insert msg.hash
            ((votes.weightInfo[msg.hash]?.getD 0 +
              nodeWeight config.consensusNodeList msg.generatedFrom) % uint64) } := by
  unfold addCache
  split
  next h => exact .inl ⟨rfl, .inl h⟩
  next hindex =>
    split
    next h => exact .inl ⟨rfl, .inr (.inl ((cached_iff_mem_senders _ _).mp h))⟩
    next hcached =>
      rw [cached_iff_mem_senders] at hcached
      cases hnode : config.getConsensusNodeByIndex msg.generatedFrom with
      | none => exact .inl ⟨rfl, .inr (.inr hnode)⟩
      | some =>
        simp only [PBFTConfig.getConsensusNodeByIndex] at hnode
        refine .inr ⟨not_not.mp hindex, hcached, (List.getElem?_eq_some_iff.mp hnode).1, ?_⟩
        simp [nodeWeight, hnode]

theorem senders_orderedInsert (weightInfo : OrderedMap HashType Nat) (hash : HashType) :
    ((VoteCache.mk (votes.cachedReq.orderedInsert (·.generatedFrom ≤ ·.generatedFrom) msg)
      weightInfo).senders hash).Perm
      (if msg.hash = hash then msg.generatedFrom :: votes.senders hash
        else votes.senders hash) := by
  have hperm := (List.perm_orderedInsert (fun a b : PBFTMessage =>
    a.generatedFrom ≤ b.generatedFrom) msg votes.cachedReq).filter (·.hash = hash)
  refine (hperm.map _).trans ?_
  split
  next h => simp [senders, h]
  next h => simp [senders, h]

namespace Exact

theorem empty : Exact nodes {} where
  nodup hash := by simp [senders]
  weight hash := by simp [senders]

theorem addCache (h : Exact config.consensusNodeList votes) (index : Nat) (msg : PBFTMessage) :
    Exact config.consensusNodeList (votes.addCache config index msg) := by
  rcases addCache_cases config index votes msg with ⟨heq, -⟩ | ⟨-, hnew, -, heq⟩
  · rw [heq]
    exact h
  rw [heq]
  refine ⟨fun hash => ?_, fun hash => ?_⟩
  · rw [(senders_orderedInsert _ hash).nodup_iff]
    split
    next hhash => exact List.nodup_cons.mpr ⟨hhash ▸ hnew, h.nodup hash⟩
    · exact h.nodup hash
  · rw [((senders_orderedInsert _ hash).map _).sum_eq, OrderedMap.getElem?_insert]
    split
    next hhash =>
      rw [getD_some, hhash, h.weight hash, List.map_cons, List.sum_cons, mod_add_mod, add_comm]
    · exact h.weight hash

end Exact

theorem recount_getD (quorum : OrderedMap HashType Nat) (hash : HashType) {weight}
    (h : quorum[hash]?.getD 0 = weight % uint64) :
    (recount config quorum msg)[hash]?.getD 0 =
      (weight + if msg.hash = hash then nodeWeight config.consensusNodeList msg.generatedFrom
        else 0) % uint64 := by
  rw [recount, OrderedMap.getElem?_insert]
  split
  case isFalse => simpa using h
  next hhash =>
    rw [hhash, getD_some, h, PBFTConfig.getConsensusNodeByIndex]
    cases hnode : config.consensusNodeList[msg.generatedFrom]? with
    | none | some => simp [nodeWeight, hnode]

theorem foldl_recount_getD (config) (cachedReq : List PBFTMessage)
    (quorum : OrderedMap HashType Nat) (hash : HashType) {weight}
    (h : quorum[hash]?.getD 0 = weight % uint64) :
    (cachedReq.foldl (recount config) quorum)[hash]?.getD 0 =
      (weight + (((cachedReq.filter (·.hash = hash)).map (·.generatedFrom)).map
        (nodeWeight config.consensusNodeList)).sum) % uint64 := by
  induction cachedReq generalizing quorum weight with
  | nil => simpa using h
  | cons msg _ ih =>
    rw [List.foldl_cons, ih _ (recount_getD quorum hash h), List.filter_cons]
    by_cases hhash : msg.hash = hash
    · simp [hhash, add_assoc]
    · simp [hhash]

theorem Exact.resetCacheAfterViewChange (h : Exact config.consensusNodeList votes) (curView : Nat) :
    Exact config.consensusNodeList (votes.resetCacheAfterViewChange config curView) where
  nodup hash := by
    refine (h.nodup hash).sublist ?_
    exact ((List.filter_sublist).filter _).map _
  weight hash := by
    have hempty : (∅ : OrderedMap HashType Nat)[hash]?.getD 0 = 0 % uint64 := by simp
    have hfold := foldl_recount_getD config
      (votes.cachedReq.filter fun req => curView ≤ req.view) ∅ hash hempty
    simpa [VoteCache.resetCacheAfterViewChange, recalculateQuorum, senders] using hfold

theorem Exact.weight_eq {nodes} (h : Exact nodes votes)
    (htotal : (nodes.map (·.weight)).sum < uint64) (hash : HashType) :
    votes.weightInfo[hash]?.getD 0 = ∑ i ∈ (votes.senders hash).toFinset, nodeWeight nodes i := by
  rw [h.weight hash, List.sum_toFinset _ (h.nodup hash), mod_eq_of_lt]
  rw [← List.sum_toFinset _ (h.nodup hash)]
  exact (sum_nodeWeight_le nodes _).trans_lt htotal

end VoteCache

variable (accepted : List PBFTMessage) (index view : Nat)

/-- The nodes of the list from which a vote for an index, a view and a hash has been accepted. -/
def voters (hash : HashType) : Finset Nat :=
  {i ∈ range nodes.length | ∃ msg ∈ accepted,
    msg.generatedFrom = i ∧ msg.index = index ∧ msg.view = view ∧ msg.hash = hash}

theorem voters_cons (hash : HashType) (msg : PBFTMessage) :
    voters nodes (msg :: accepted) index view hash =
      if msg.generatedFrom < nodes.length ∧ msg.index = index ∧ msg.view = view ∧ msg.hash = hash
      then insert msg.generatedFrom (voters nodes accepted index view hash)
      else voters nodes accepted index view hash := by
  ext i
  split
  · simp only [voters, mem_filter, mem_range, List.exists_mem_cons_iff, mem_insert]
    grind
  · simp only [voters, mem_filter, mem_range, List.exists_mem_cons_iff]
    grind

structure Counted (nodes : List ConsensusNode) (index view : Nat) (votes : VoteCache)
    (accepted : List PBFTMessage) : Prop where
  exact : votes.Exact nodes
  known : ∀ msg ∈ accepted, msg.view ≤ view
  current : ∀ req ∈ votes.cachedReq, req.view = view
  senders : ∀ hash, (votes.senders hash).toFinset = voters nodes accepted index view hash

namespace Counted

variable {config : PBFTConfig} {index view : Nat} {votes : VoteCache} {accepted : List PBFTMessage}
  {msg : PBFTMessage}

theorem empty (nodes : List ConsensusNode) : Counted nodes index view {} [] where
  exact := .empty nodes
  known := by simp
  current := by simp
  senders hash := by simp [voters, VoteCache.senders]

section

variable (h : Counted config.consensusNodeList index view votes accepted)

include h

theorem addCache (hview : msg.view = view) :
    Counted config.consensusNodeList index view (votes.addCache config index msg)
      (msg :: accepted) := by
  have hknown : ∀ m ∈ msg :: accepted, m.view ≤ view := List.forall_mem_cons.mpr ⟨hview.le, h.known⟩
  rcases VoteCache.addCache_cases config index votes msg with ⟨heq, hold⟩ | ⟨hindex, -, hlt, heq⟩
  · rw [heq]
    refine ⟨h.exact, hknown, h.current, fun hash => ?_⟩
    rw [h.senders hash, voters_cons]
    split
    case isFalse => rfl
    next hmsg =>
      obtain ⟨hlt, hindex, -, rfl⟩ := hmsg
      rcases hold with hne | _ | hnone
      · exact absurd hindex hne
      · rw [insert_eq_of_mem]
        rwa [← h.senders, List.mem_toFinset]
      · rw [List.getElem?_eq_none_iff] at hnone
        exact absurd hlt (not_lt.mpr hnone)
  · have hexact := h.exact.addCache index msg
    rw [heq] at hexact ⊢
    refine ⟨hexact, hknown, fun req hreq => ?_, fun hash => ?_⟩
    · rcases (List.perm_orderedInsert _ _ _).mem_iff.mp hreq |> List.mem_cons.mp with rfl | hreq
      · exact hview
      · exact h.current req hreq
    · rw [List.toFinset_eq_of_perm _ _ (VoteCache.senders_orderedInsert _ hash), voters_cons,
        ← h.senders hash]
      by_cases hhash : msg.hash = hash
      · rw [if_pos hhash, if_pos ⟨hlt, hindex, hview, hhash⟩, List.toFinset_cons]
      · rw [if_neg hhash, if_neg fun hmsg => hhash hmsg.2.2.2]

theorem resetCacheAfterViewChange {curView} (hview : view ≤ curView) :
    Counted config.consensusNodeList index curView
      (votes.resetCacheAfterViewChange config curView) accepted := by
  have hmem {req}
      (hreq : req ∈ (votes.resetCacheAfterViewChange config curView).cachedReq) :
      req ∈ votes.cachedReq ∧ curView ≤ req.view := by
    simpa [VoteCache.resetCacheAfterViewChange] using hreq
  refine ⟨h.exact.resetCacheAfterViewChange curView, fun msg hm => (h.known msg hm).trans hview,
    fun req hreq => ?_, fun hash => ?_⟩
  · exact le_antisymm ((h.current req (hmem hreq).1).trans_le hview) (hmem hreq).2
  · rcases hview.eq_or_lt with rfl | hlt
    · rw [← h.senders hash]
      have hsame : (votes.cachedReq.filter fun req => view ≤ req.view) = votes.cachedReq :=
        List.filter_eq_self.mpr fun req hreq => by simp [h.current req hreq]
      simp [VoteCache.senders, VoteCache.resetCacheAfterViewChange, hsame]
    · have hnil : (votes.cachedReq.filter fun req => curView ≤ req.view) = [] :=
        List.filter_eq_nil_iff.mpr fun req hreq => by simp [h.current req hreq, hlt]
      have hnone : voters config.consensusNodeList accepted index curView hash = ∅ := by
        refine filter_eq_empty_iff.mpr ?_
        rintro i - ⟨msg, hm, -, -, rfl, -⟩
        exact absurd (h.known msg hm) (not_le.mpr hlt)
      simp [VoteCache.senders, VoteCache.resetCacheAfterViewChange, hnil, hnone]

end

end Counted

/-! ### A cache of its node -/

/-- A cache, what its node reads, and the prepares and commits accepted since it was made. -/
structure Tally where
  config : PBFTConfig
  cache : PBFTCache
  prepares : List PBFTMessage := []
  commits : List PBFTMessage := []

inductive CacheEvent where
  | prePrepare (msg : PBFTMessage)
  | prepare (msg : PBFTMessage)
  | commit (msg : PBFTMessage)
  | preCommit
  | checkAndCommit
  | checkPoint (msg : PBFTMessage)
  | setCheckPointProposal (proposal : PBFTProposal)
  | checkAndCommitStableCheckPoint
  | resetCache (view : Nat)
  | configure (config : PBFTConfig)

namespace Tally

def start (config : PBFTConfig) (index : Nat) : Tally where
  config := config
  cache := { index := index }

/-- The node's own prepare is an event of its own, and its own commit comes with the precommit. -/
def step : CacheEvent → Tally
  | .prePrepare msg => { t with cache := t.cache.addPrePrepareCache msg }
  | .prepare msg =>
    { t with cache := t.cache.addPrepareCache t.config msg, prepares := msg :: t.prepares }
  | .commit msg =>
    { t with cache := t.cache.addCommitCache t.config msg, commits := msg :: t.commits }
  | .preCommit =>
    match t.cache.readyToPreCommit t.config with
    | none => t
    | some prePrepare =>
      { t with
        cache := t.cache.preCommitted t.config prePrepare
        commits := (commitReq t.config
          (t.cache.precommitOf t.config prePrepare)).toList ++ t.commits }
  | .checkAndCommit => { t with cache := (t.cache.checkAndCommit t.config).1 }
  | .checkPoint msg => { t with cache := t.cache.addCheckPointMsg t.config msg }
  | .setCheckPointProposal proposal =>
    { t with cache := t.cache.setCheckPointProposal t.config proposal }
  | .checkAndCommitStableCheckPoint =>
    { t with cache := (t.cache.checkAndCommitStableCheckPoint t.config).1 }
  | .resetCache view =>
    { t with config := { t.config with view := view }, cache := t.cache.resetCache t.config view }
  | .configure config => { t with config := config }

def run (events : List CacheEvent) : Tally := events.foldl step t

def prepareWeight (hash : HashType) : Nat :=
  ∑ i ∈ voters t.config.consensusNodeList t.prepares t.cache.index t.config.view hash,
    nodeWeight t.config.consensusNodeList i

def commitWeight (hash : HashType) : Nat :=
  ∑ i ∈ voters t.config.consensusNodeList t.commits t.cache.index t.config.view hash,
    nodeWeight t.config.consensusNodeList i

end Tally

open Tally

def CacheEvent.Admissible : CacheEvent → Prop
  | .prepare msg | .commit msg => t.config.view ≤ msg.view
  | .resetCache view => t.config.view ≤ view
  | .configure config =>
    config.view = t.config.view ∧ config.consensusNodeList = t.config.consensusNodeList
  | _ => True

def CacheEvent.OfCurrentView : CacheEvent → Prop
  | .prepare msg | .commit msg => msg.view = t.config.view
  | _ => True

instance (t : Tally) : DecidablePred (CacheEvent.Admissible t) := fun _ => by
  unfold CacheEvent.Admissible
  split <;> infer_instance

instance (t : Tally) : DecidablePred (CacheEvent.OfCurrentView t) := fun _ => by
  unfold CacheEvent.OfCurrentView
  split <;> infer_instance

structure SameVotes (c c' : PBFTCache) : Prop where
  index : c'.index = c.index
  prepares : c'.prepareCacheList = c.prepareCacheList
  commits : c'.commitCacheList = c.commitCacheList

namespace SameVotes

variable (config : PBFTConfig) (c : PBFTCache)

theorem addPrePrepareCache (msg : PBFTMessage) : SameVotes c (c.addPrePrepareCache msg) := by
  rcases addPrePrepareCache_cases c msg with ⟨heq, -⟩ | heq <;> rw [heq] <;> exact ⟨rfl, rfl, rfl⟩

theorem checkAndCommit : SameVotes c (c.checkAndCommit config).1 := by
  cases h : (c.checkAndCommit config).2 with
  | false =>
    rw [PBFTEngine.checkAndCommit_eq_false h]
    exact ⟨rfl, rfl, rfl⟩
  | true =>
    rw [(PBFTEngine.checkAndCommit_eq_true h).1]
    exact ⟨rfl, rfl, rfl⟩

theorem setCheckPointProposal (proposal) :
    SameVotes c (c.setCheckPointProposal config proposal) := by
  unfold PBFTCache.setCheckPointProposal
  split
  · exact ⟨rfl, rfl, rfl⟩
  split <;> exact ⟨rfl, rfl, rfl⟩

theorem checkAndCommitStableCheckPoint :
    SameVotes c (c.checkAndCommitStableCheckPoint config).1 := by
  rcases checkAndCommitStableCheckPoint_cases c config with heq | ⟨_, _, -, heq⟩ <;> rw [heq] <;>
    exact ⟨rfl, rfl, rfl⟩

end SameVotes

structure Tally.Inv (nodes : List ConsensusNode) (index : Nat) (t : Tally) : Prop where
  nodeList : t.config.consensusNodeList = nodes
  cacheIndex : t.cache.index = index
  prepares : Counted nodes index t.config.view t.cache.prepareCacheList t.prepares
  commits : Counted nodes index t.config.view t.cache.commitCacheList t.commits

namespace Tally.Inv

variable {nodes : List ConsensusNode} {index : Nat} {t : Tally}

theorem start (config) (index : Nat) :
    Inv config.consensusNodeList index (start config index) where
  nodeList := rfl
  cacheIndex := rfl
  prepares := .empty _
  commits := .empty _

section

variable (h : Inv nodes index t)

include h

theorem sameVotes {cache} (hsame : SameVotes t.cache cache) :
    Inv nodes index { t with cache := cache } where
  nodeList := h.nodeList
  cacheIndex := hsame.index.trans h.cacheIndex
  prepares := hsame.prepares ▸ h.prepares
  commits := hsame.commits ▸ h.commits

theorem addPrepareCache {msg} (hview : msg.view = t.config.view) :
    Inv nodes index (t.step (.prepare msg)) where
  nodeList := h.nodeList
  cacheIndex := h.cacheIndex
  prepares := by
    obtain ⟨rfl, rfl, hprepares, -⟩ := h
    exact hprepares.addCache hview
  commits := h.commits

theorem addCommitCache {msg} (hview : msg.view = t.config.view) :
    Inv nodes index (t.step (.commit msg)) where
  nodeList := h.nodeList
  cacheIndex := h.cacheIndex
  prepares := h.prepares
  commits := by
    obtain ⟨rfl, rfl, -, hcommits⟩ := h
    exact hcommits.addCache hview

theorem preCommit : Inv nodes index (t.step .preCommit) := by
  simp only [step]
  split
  · exact h
  next prePrepare hready =>
    unfold preCommitted
    cases hreq : commitReq t.config (t.cache.precommitOf t.config prePrepare) with
    | none => exact h.sameVotes ⟨rfl, rfl, rfl⟩
    | some msg =>
      obtain ⟨_, -, hmsg⟩ := map_eq_some_iff.mp hreq
      have hview : msg.view = t.config.view := by rw [← hmsg]; rfl
      have hcommit := h.addCommitCache hview
      exact ⟨hcommit.nodeList, hcommit.cacheIndex, hcommit.prepares, hcommit.commits⟩

theorem resetCache {view} (hview : t.config.view ≤ view) :
    Inv nodes index (t.step (.resetCache view)) := by
  obtain ⟨rfl, hindex, hprepares, hcommits⟩ := h
  exact ⟨rfl, hindex, hprepares.resetCacheAfterViewChange hview,
    hcommits.resetCacheAfterViewChange hview⟩

theorem step {event} (hadmissible : event.Admissible t)
    (hcurrent : event.OfCurrentView t) : Inv nodes index (t.step event) := by
  cases event with
  | prePrepare msg => exact h.sameVotes (.addPrePrepareCache t.cache msg)
  | prepare => exact h.addPrepareCache hcurrent
  | commit => exact h.addCommitCache hcurrent
  | preCommit => exact h.preCommit
  | checkAndCommit => exact h.sameVotes (.checkAndCommit t.config t.cache)
  | checkPoint => exact h.sameVotes ⟨rfl, rfl, rfl⟩
  | setCheckPointProposal proposal =>
    exact h.sameVotes (.setCheckPointProposal t.config t.cache proposal)
  | checkAndCommitStableCheckPoint =>
    exact h.sameVotes (.checkAndCommitStableCheckPoint t.config t.cache)
  | resetCache => exact h.resetCache hadmissible
  | configure =>
    obtain ⟨hview, hnodes⟩ := hadmissible
    exact ⟨hnodes.trans h.nodeList, h.cacheIndex, hview ▸ h.prepares, hview ▸ h.commits⟩

end

end Tally.Inv

/-- The recorded weights are exact in runs where every vote that comes in is of the node's view. -/
theorem vote_weight_exact (config : PBFTConfig) (index : Nat)
    (htotal : (config.consensusNodeList.map (·.weight)).sum < uint64) {events : List CacheEvent}
    (h : Foundation.Along step (fun t event => event.Admissible t ∧ event.OfCurrentView t)
      (.start config index) events) (hash : HashType) :
    ((start config index).run events).cache.prepareCacheList.weightInfo[hash]?.getD 0 =
        ((start config index).run events).prepareWeight hash ∧
      ((start config index).run events).cache.commitCacheList.weightInfo[hash]?.getD 0 =
        ((start config index).run events).commitWeight hash := by
  have hinv : Inv config.consensusNodeList index ((start config index).run events) :=
    h.invariant (fun t _ ht hC => ht.step hC.1 hC.2) (.start config index)
  refine ⟨?_, ?_⟩
  · rw [hinv.prepares.exact.weight_eq htotal, hinv.prepares.senders hash, prepareWeight,
      hinv.nodeList, hinv.cacheIndex]
  · rw [hinv.commits.exact.weight_eq htotal, hinv.commits.senders hash, commitWeight,
      hinv.nodeList, hinv.cacheIndex]

/-- Node `2` prepares in view `0`, and again for a view before or after node `0` gets there. -/
def preparesOfNode2 (early late : List Nat) : List CacheEvent :=
  .prepare (voteOf .preparePacket 2 0 3 11) ::
    early.map (fun view => .prepare (voteOf .preparePacket 2 view 3 11)) ++ .resetCache 1 ::
    late.map fun view => .prepare (voteOf .preparePacket 2 view 3 11)

theorem vote_weight_exact_preparesOfNode2 :
    ((start (startNode 0).config 3).run (preparesOfNode2 [] [1])).prepareWeight 11 = 1 := by
  have htotal : ((startNode 0).config.consensusNodeList.map (·.weight)).sum < uint64 := by
    decide +kernel
  have hcurrent : Foundation.Along step
      (fun t event => event.Admissible t ∧ event.OfCurrentView t)
      (.start (startNode 0).config 3) (preparesOfNode2 [] [1]) := by decide +kernel
  rw [← (vote_weight_exact (startNode 0).config 3 htotal hcurrent 11).1]
  decide +kernel

/-- A prepare for view `1` passes the checks in view `0` and is counted there.  If the node has one
of view `0` it is dropped, and it is missing in view `1`. -/
theorem vote_weight_inexact :
    ((startNode 0).run [.message (.pbft (voteOf .preparePacket 2 1 3 11))]).config.view = 0 ∧
    (((startNode 0).run [.message (.pbft (voteOf .preparePacket 2 1 3 11))]).caches[3]?.map
      fun cache => cache.prepareCacheList.weightInfo[11]?.getD 0) = some 1 ∧
    ((start (startNode 0).config 3).run
      [.prepare (voteOf .preparePacket 2 1 3 11)]).prepareWeight 11 = 0 ∧
    ((startNode 0).run [.message (.pbft (voteOf .preparePacket 2 0 3 11))]).checkPBFTMsg
      (voteOf .preparePacket 2 1 3 11) = true ∧
    ((start (startNode 0).config 3).run
      (preparesOfNode2 [1] [])).cache.prepareCacheList.weightInfo[11]?.getD 0 = 0 ∧
    ((start (startNode 0).config 3).run (preparesOfNode2 [1] [])).prepareWeight 11 = 1 := by
  decide +kernel

end Loki.Fisco
