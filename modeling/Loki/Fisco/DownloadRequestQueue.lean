import Mathlib.Data.List.Sort

/-!
# The block requests of a peer

`DownloadRequestQueue` of `bcos-sync`.  Its priority queue is the list of the requests in the
order they leave it, so that only a sorted list is a queue.  Numbers are natural: no request ends
beyond `2^64`, and the merged range ends where one of its requests does.
-/

namespace Loki.Fisco

structure DownloadRequest where
  fromNumber : Nat
  size : Nat
  deriving DecidableEq, Repr

namespace DownloadRequest

/-- `DownloadRequestCmp`: the lower block leaves first, and the longer request among equals. -/
def Before (first second : DownloadRequest) : Prop :=
  first.fromNumber < second.fromNumber ∨
    first.fromNumber = second.fromNumber ∧ second.size ≤ first.size

instance : DecidableRel Before := fun _ _ => inferInstanceAs (Decidable (_ ∨ _))

instance : Std.Total Before := ⟨fun _ _ => by unfold Before; omega⟩

instance : IsTrans _ Before := ⟨fun _ _ _ => by unfold Before; omega⟩

/-- The request asks for block `n`. -/
def Covers (request : DownloadRequest) (n : Nat) : Prop :=
  request.fromNumber ≤ n ∧ n < request.fromNumber + request.size

end DownloadRequest

open DownloadRequest List

structure DownloadRequestQueue where
  reqQueue : List DownloadRequest
  sorted : reqQueue.Pairwise Before

namespace DownloadRequestQueue

/-- A request is dropped when the queue is full: the requester has to retry. -/
def push (maxDownloadRequestQueueSize : Nat) (s : DownloadRequestQueue)
    (request : DownloadRequest) : DownloadRequestQueue :=
  if maxDownloadRequestQueueSize ≤ s.reqQueue.length then s
  else ⟨s.reqQueue.orderedInsert Before request, s.sorted.orderedInsert _ _⟩

/-- The loop of `topAndPop`: the merged size and the requests left. -/
def mergeTops (fromNumber : Nat) : Nat → List DownloadRequest → Nat × List DownloadRequest
  | size, [] => (size, [])
  | size, topReq :: reqQueue =>
    if topReq.fromNumber ≤ fromNumber + size then
      mergeTops fromNumber (max size (topReq.fromNumber + topReq.size - fromNumber)) reqQueue
    else (size, topReq :: reqQueue)

/-- The loop removes a first part of the queue, merges exactly its ranges and stops before a
gap. -/
theorem mergeTops_spec {fromNumber reqQueue} (size : Nat) (hsorted : reqQueue.Pairwise Before)
    (hfrom : ∀ request ∈ reqQueue, fromNumber ≤ request.fromNumber) :
    ∃ removed, reqQueue = removed ++ (mergeTops fromNumber size reqQueue).2 ∧
      (∀ n, Covers ⟨fromNumber, (mergeTops fromNumber size reqQueue).1⟩ n ↔
        Covers ⟨fromNumber, size⟩ n ∨ ∃ request ∈ removed, request.Covers n) ∧
      ∀ request ∈ (mergeTops fromNumber size reqQueue).2,
        fromNumber + (mergeTops fromNumber size reqQueue).1 < request.fromNumber := by
  induction reqQueue generalizing size with
  | nil => exact ⟨[], by simp [mergeTops]⟩
  | cons topReq reqQueue ih =>
    rw [pairwise_cons] at hsorted
    rw [forall_mem_cons] at hfrom
    rw [mergeTops]
    split
    · obtain ⟨removed, hqueue, hcovers, hrest⟩ := ih _ hsorted.2 hfrom.2
      refine ⟨topReq :: removed, congrArg (topReq :: ·) hqueue, fun n => ?_, hrest⟩
      rw [hcovers, exists_mem_cons_iff, ← or_assoc]
      apply or_congr_left
      simp only [Covers]
      omega
    · refine ⟨[], rfl, by simp, forall_mem_cons.2 ⟨by omega, fun request hrequest => ?_⟩⟩
      have := hsorted.1 request hrequest
      unfold Before at this
      omega

/-- One call returns the union of the requests it removed, which starts where one of them does,
and leaves requests that start after a gap. -/
def Merges (reqQueue : List DownloadRequest) (request : DownloadRequest)
    (rest : List DownloadRequest) : Prop :=
  ∃ removed, (∃ topReq ∈ removed, request.fromNumber = topReq.fromNumber) ∧
    reqQueue = removed ++ rest ∧
    (∀ n, request.Covers n ↔ ∃ r ∈ removed, r.Covers n) ∧
    ∀ r ∈ rest, request.fromNumber + request.size < r.fromNumber

theorem merges_mergeTops {topReq reqQueue} (hsorted : (topReq :: reqQueue).Pairwise Before) :
    Merges (topReq :: reqQueue)
      ⟨topReq.fromNumber, (mergeTops topReq.fromNumber 0 (topReq :: reqQueue)).1⟩
      (mergeTops topReq.fromNumber 0 (topReq :: reqQueue)).2 := by
  have hfrom : ∀ request ∈ topReq :: reqQueue, topReq.fromNumber ≤ request.fromNumber := by
    refine forall_mem_cons.2 ⟨le_rfl, fun request hrequest => ?_⟩
    have := rel_of_pairwise_cons hsorted hrequest
    unfold Before at this
    omega
  obtain ⟨removed, hqueue, hcovers, hrest⟩ := mergeTops_spec 0 hsorted hfrom
  refine ⟨removed, ⟨topReq, ?_, rfl⟩, hqueue, fun n => ?_, hrest⟩
  · have htop : topReq ∈ topReq :: reqQueue := mem_cons_self
    rw [hqueue] at htop
    apply (mem_append.1 htop).resolve_right
    intro hleft
    have := hrest topReq hleft
    omega
  · rw [hcovers, or_iff_right]
    simp only [Covers]
    omega

def topAndPop : DownloadRequestQueue → Option (DownloadRequest × DownloadRequestQueue)
  | ⟨[], _⟩ => none
  | ⟨topReq :: reqQueue, hsorted⟩ =>
    let merged := mergeTops topReq.fromNumber 0 (topReq :: reqQueue)
    some (⟨topReq.fromNumber, merged.1⟩, ⟨merged.2, by
      obtain ⟨_, -, hqueue, -⟩ := merges_mergeTops hsorted
      exact (pairwise_append.1 (hqueue ▸ hsorted)).2.1⟩)

theorem merges_of_topAndPop {s request rest} (hcall : topAndPop s = some (request, rest)) :
    Merges s.reqQueue request rest.reqQueue := by
  obtain ⟨_ | ⟨topReq, reqQueue⟩, hsorted⟩ := s
  · cases hcall
  · cases hcall
    exact merges_mergeTops hsorted

/-- The ranges of repeated calls until the queue is empty, or of the first `fuel` ones. -/
def drain : Nat → DownloadRequestQueue → List DownloadRequest
  | 0, _ => []
  | fuel + 1, s =>
    match s.topAndPop with
    | none => []
    | some (request, rest) => request :: drain fuel rest

theorem drain_spec {fuel} {s : DownloadRequestQueue} (hfuel : s.reqQueue.length ≤ fuel) :
    (drain fuel s).Pairwise (fun first next => first.fromNumber + first.size < next.fromNumber) ∧
    (∀ n, (∃ request ∈ drain fuel s, request.Covers n) ↔ ∃ request ∈ s.reqQueue, request.Covers n) ∧
    ∀ start, (∀ request ∈ s.reqQueue, start < request.fromNumber) →
      ∀ request ∈ drain fuel s, start < request.fromNumber := by
  induction fuel generalizing s with
  | zero => simp [drain, eq_nil_of_length_eq_zero (Nat.le_zero.1 hfuel)]
  | succ fuel ih =>
    rw [drain]
    split
    next hcall =>
      obtain ⟨_ | _, _⟩ := s
      · simp
      · cases hcall
    next request rest hcall =>
      obtain ⟨removed, ⟨topReq, htop, hfrom⟩, hqueue, hcovers, hrest⟩ := merges_of_topAndPop hcall
      rw [hqueue, length_append] at hfuel
      have hremoved := length_pos_of_mem htop
      have hless : rest.reqQueue.length ≤ fuel := by omega
      obtain ⟨hgaps, hblocks, hstart⟩ := ih hless
      refine ⟨pairwise_cons.2 ⟨hstart _ hrest, hgaps⟩, fun n => ?_, fun start hlt => ?_⟩
      · rw [exists_mem_cons_iff, hcovers, hblocks, hqueue]
        simp only [mem_append, or_and_right, exists_or]
      · rw [hqueue, forall_mem_append] at hlt
        exact forall_mem_cons.2 ⟨hfrom ▸ hlt.1 topReq htop, hstart start hlt.2⟩

/-- The queue holds the requests that were pushed while it had room. -/
theorem push_perm (maxSize) (s : DownloadRequestQueue) (requests : List DownloadRequest) :
    (requests.foldl (push maxSize) s).reqQueue.Perm
      (s.reqQueue ++ requests.take (maxSize - s.reqQueue.length)) := by
  induction requests generalizing s with
  | nil => simp
  | cons request requests ih =>
    apply (ih _).trans
    by_cases hfull : maxSize ≤ s.reqQueue.length
    · simp [push, if_pos hfull, Nat.sub_eq_zero_of_le hfull]
    · have hinsert := s.reqQueue.perm_orderedInsert Before request
      obtain ⟨k, rfl⟩ := Nat.exists_eq_add_of_lt (Nat.lt_of_not_le hfull)
      rw [push, if_neg hfull, hinsert.length_eq, length_cons, Nat.add_sub_add_right,
        Nat.add_sub_cancel_left, Nat.add_assoc, Nat.add_sub_cancel_left, take_succ_cons]
      exact (hinsert.append_right _).trans perm_middle.symm

/-- Every call merges what it removes, and the calls that empty the queue cover the requests it
took by ranges with gaps between them. -/
theorem topAndPop_merges (maxDownloadRequestQueueSize : Nat) (requests : List DownloadRequest) :
    (∀ s request rest, topAndPop s = some (request, rest) →
      Merges s.reqQueue request rest.reqQueue) ∧
    let ranges := drain requests.length
      (requests.foldl (push maxDownloadRequestQueueSize) ⟨[], .nil⟩)
    ranges.Pairwise (fun first next => first.fromNumber + first.size < next.fromNumber) ∧
    ∀ n, (∃ request ∈ ranges, request.Covers n) ↔
      ∃ request ∈ requests.take maxDownloadRequestQueueSize, request.Covers n := by
  have hpushed := push_perm maxDownloadRequestQueueSize ⟨[], .nil⟩ requests
  obtain ⟨hgaps, hblocks, -⟩ := drain_spec
    (hpushed.length_eq.trans_le (length_take_le' _ requests))
  refine ⟨fun _ _ _ => merges_of_topAndPop, hgaps, fun n => (hblocks n).trans ?_⟩
  simp only [hpushed.mem_iff]
  rfl

end DownloadRequestQueue

end Loki.Fisco
