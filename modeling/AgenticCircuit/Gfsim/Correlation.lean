import AgenticCircuit.Gfsim.Components
import Mathlib.Data.Finset.Card

/-! # Correlated requests and responses

`RequestResponse` of `gfsim/components.h` with the operations of its two sides.  Requests and
responses are proposed, become visible at `doXfer`, and are popped by the other side, which takes
effect at the next `doXfer`.

* **`Log`** is what the calls since the last reset have shown: the requests accepted, handed out
  and removed, and the same for the responses.
* **`Invariant`** relates the committed lists and the two sets of correlations to the log; every
  call keeps it.
* **`Run.correlated`**: a correlation is live from its request until its response is committed,
  and free again when the response has been popped. -/

namespace AgenticCircuit.Gfsim

open List
open Finset (mem_union mem_sdiff)

/-- The whole state of the object. -/
structure RequestResponseLink (Req Resp : Type) where
  maxInFlight : ℕ
  totalCompleted : UInt64 := 0
  requestProposals : List (Envelope Req) := []
  committedRequests : List (Envelope Req) := []
  responseProposals : List (Envelope Resp) := []
  committedResponses : List (Envelope Resp) := []
  active : Finset ℕ := ∅
  deliveredRequests : Finset ℕ := ∅
  requestPopCount : ℕ := 0
  responsePopCount : ℕ := 0
  lastUpdate : Epoch := ⟨0, 0⟩
deriving DecidableEq

/-- The correlations of a list of envelopes. -/
def correlations {α : Type} (envelopes : List (Envelope α)) : List ℕ := envelopes.map (·.correlationId)

section correlations

variable {α : Type}

@[simp] theorem correlations_nil : correlations ([] : List (Envelope α)) = [] := rfl

@[simp] theorem correlations_append (l m : List (Envelope α)) :
    correlations (l ++ m) = correlations l ++ correlations m :=
  map_append

@[simp] theorem correlations_singleton (e : Envelope α) :
    correlations [e] = [e.correlationId] := rfl

end correlations

namespace RequestResponseLink

variable {Req Resp : Type} (v : RequestResponseLink Req Resp)

def containsCorrelation (correlationId : ℕ) : Bool :=
  decide (correlationId ∈ v.active) || v.requestProposals.any (·.correlationId == correlationId) ||
    v.committedResponses.any (·.correlationId == correlationId)

def proposeRequest (request : Req) (correlationId : ℕ) : Bool × RequestResponseLink Req Resp :=
  if decide (v.active.card + v.requestProposals.length ≥ v.maxInFlight) ||
      v.containsCorrelation correlationId then (false, v)
  else (true, { v with requestProposals := v.requestProposals ++ [⟨request, correlationId⟩] })

def proposePopRequest : Option (Envelope Req) × RequestResponseLink Req Resp :=
  match v.committedRequests[v.requestPopCount]? with
  | none => (none, v)
  | some request => (some request, { v with requestPopCount := v.requestPopCount + 1 })

def proposeResponse (response : Resp) (correlationId : ℕ) : Bool × RequestResponseLink Req Resp :=
  if decide (correlationId ∉ v.active) || decide (correlationId ∉ v.deliveredRequests) ||
      v.responseProposals.any (·.correlationId == correlationId) then (false, v)
  else (true, { v with responseProposals := v.responseProposals ++ [⟨response, correlationId⟩] })

def proposePopResponse : Option (Envelope Resp) × RequestResponseLink Req Resp :=
  match v.committedResponses[v.responsePopCount]? with
  | none => (none, v)
  | some response => (some response, { v with responsePopCount := v.responsePopCount + 1 })

def hasPendingCommit : Bool :=
  !v.requestProposals.isEmpty || !v.responseProposals.isEmpty ||
    decide (v.requestPopCount ≠ 0) || decide (v.responsePopCount ≠ 0)

/-- Pops take effect, then requests become active, then responses end their correlations. -/
def doXfer (epoch : Epoch) : RequestResponseLink Req Resp :=
  let requestPops := min v.requestPopCount v.committedRequests.length
  let responsePops := min v.responsePopCount v.committedResponses.length
  let delivered := v.deliveredRequests ∪ (correlations (v.committedRequests.take requestPops)).toFinset
  let active := v.active ∪ (correlations v.requestProposals).toFinset
  { v with
    totalCompleted := v.totalCompleted + UInt64.ofNat v.responseProposals.length
    requestProposals := []
    committedRequests := v.committedRequests.drop requestPops ++ v.requestProposals
    responseProposals := []
    committedResponses := v.committedResponses.drop responsePops ++ v.responseProposals
    active := active \ (correlations v.responseProposals).toFinset
    deliveredRequests := delivered \ (correlations v.responseProposals).toFinset
    requestPopCount := 0
    responsePopCount := 0
    lastUpdate := if v.hasPendingCommit then epoch else v.lastUpdate }

def inFlight : ℕ := v.active.card

def validate : Bool :=
  !(decide (v.active.card > v.maxInFlight) ||
      decide (v.active.card + v.requestProposals.length > v.maxInFlight)) &&
    decide (∀ correlationId ∈ v.deliveredRequests, correlationId ∈ v.active) &&
    v.committedRequests.all (fun request => decide (request.correlationId ∈ v.active)) &&
    v.responseProposals.all fun response =>
      decide (response.correlationId ∈ v.active) &&
        decide (response.correlationId ∈ v.deliveredRequests)

def reset : RequestResponseLink Req Resp := { maxInFlight := v.maxInFlight }

/-! ### Runs -/

inductive Call (Req Resp : Type) where
  | proposeRequest (request : Req) (correlationId : ℕ)
  | proposePopRequest
  | proposeResponse (response : Resp) (correlationId : ℕ)
  | proposePopResponse
  | doXfer (epoch : Epoch)
  | reset

def step : Call Req Resp → RequestResponseLink Req Resp
  | .proposeRequest request correlationId => (v.proposeRequest request correlationId).2
  | .proposePopRequest => v.proposePopRequest.2
  | .proposeResponse response correlationId => (v.proposeResponse response correlationId).2
  | .proposePopResponse => v.proposePopResponse.2
  | .doXfer epoch => v.doXfer epoch
  | .reset => v.reset

/-- What the calls since the last reset have shown. -/
structure Log (Req Resp : Type) where
  /-- Requests that were accepted. -/
  accepted : List (Envelope Req) := []
  /-- Requests handed out by `proposePopRequest`. -/
  handed : List (Envelope Req) := []
  /-- Requests whose pop was committed. -/
  delivered : List (Envelope Req) := []
  /-- Responses that were accepted. -/
  answered : List (Envelope Resp) := []
  /-- Responses handed out by `proposePopResponse`. -/
  received : List (Envelope Resp) := []
  /-- Responses whose pop was committed. -/
  closed : List (Envelope Resp) := []

/-- The log after a call in the state `v`. -/
def Log.record (log : Log Req Resp) : Call Req Resp → Log Req Resp
  | .proposeRequest request correlationId =>
    if (v.proposeRequest request correlationId).1 then
      { log with accepted := log.accepted ++ [⟨request, correlationId⟩] }
    else log
  | .proposePopRequest => { log with handed := log.handed ++ v.proposePopRequest.1.toList }
  | .proposeResponse response correlationId =>
    if (v.proposeResponse response correlationId).1 then
      { log with answered := log.answered ++ [⟨response, correlationId⟩] }
    else log
  | .proposePopResponse => { log with received := log.received ++ v.proposePopResponse.1.toList }
  | .doXfer _ => { log with
      delivered := log.delivered ++ v.committedRequests.take v.requestPopCount
      closed := log.closed ++ v.committedResponses.take v.responsePopCount }
  | .reset => {}

/-- A run of calls from the constructed object. -/
inductive Run (maxInFlight : ℕ) : Log Req Resp → RequestResponseLink Req Resp → Prop
  | start : Run maxInFlight {} { maxInFlight := maxInFlight }
  | call {log v} (call : Call Req Resp) : Run maxInFlight log v →
      Run maxInFlight (log.record v call) (v.step call)

/-! ### The invariant -/

/-- The two directions as queues. -/
structure Queued (log : Log Req Resp) : Prop where
  accepted : log.accepted = log.delivered ++ (v.committedRequests ++ v.requestProposals)
  handed : log.handed = log.delivered ++ v.committedRequests.take v.requestPopCount
  requestPops : v.requestPopCount ≤ v.committedRequests.length
  answered : log.answered = log.closed ++ (v.committedResponses ++ v.responseProposals)
  received : log.received = log.closed ++ v.committedResponses.take v.responsePopCount
  responsePops : v.responsePopCount ≤ v.committedResponses.length

/-- The correlations by what they wait for: a request to be delivered, an answer, the pop of the
response. -/
structure Distinct : Prop where
  active : v.active = (correlations v.committedRequests).toFinset ∪ v.deliveredRequests
  split : ∀ correlationId ∈ correlations v.committedRequests, correlationId ∉ v.deliveredRequests
  requests : (correlations (v.committedRequests ++ v.requestProposals)).Nodup
  fresh : ∀ correlationId ∈ correlations v.requestProposals, correlationId ∉ v.active
  responses : (correlations (v.committedResponses ++ v.responseProposals)).Nodup
  responded : ∀ correlationId ∈ correlations v.committedResponses,
    correlationId ∉ v.active ∧ correlationId ∉ correlations v.requestProposals
  live : ∀ correlationId ∈ correlations v.responseProposals, correlationId ∈ v.deliveredRequests
  bound : v.active.card + v.requestProposals.length ≤ v.maxInFlight

/-- A correlation has been answered as often as its requests were delivered, but for the one that
is delivered and waits for its answer. -/
def Counted (log : Log Req Resp) : Prop :=
  ∀ correlationId, (correlations log.delivered).count correlationId =
    (correlations (log.closed ++ v.committedResponses)).count correlationId +
      if correlationId ∈ v.deliveredRequests then 1 else 0

structure Invariant (log : Log Req Resp) : Prop where
  queued : v.Queued log
  distinct : v.Distinct
  counted : v.Counted log

variable {v} {log : Log Req Resp}

variable {correlationId : ℕ}

theorem Distinct.mem_active (h : v.Distinct) {correlationId : ℕ} : correlationId ∈ v.active ↔
      correlationId ∈ correlations v.committedRequests ∨ correlationId ∈ v.deliveredRequests := by
  rw [h.active, mem_union, mem_toFinset]

variable {α : Type}

theorem any_correlationId (envelopes : List (Envelope α)) (correlationId : ℕ) :
    envelopes.any (·.correlationId == correlationId) =
      decide (correlationId ∈ correlations envelopes) := by
  rw [Bool.eq_iff_iff]
  simp [correlations]

/-- What an accepted request has passed. -/
theorem proposeRequest_accepts {request : Req}
    (h : (v.proposeRequest request correlationId).1 = true) :
    (v.proposeRequest request correlationId).2 =
        { v with requestProposals := v.requestProposals ++ [⟨request, correlationId⟩] } ∧
      v.active.card + v.requestProposals.length < v.maxInFlight ∧
      correlationId ∉ v.active ∧ correlationId ∉ correlations v.requestProposals ∧
      correlationId ∉ correlations v.committedResponses := by
  unfold proposeRequest at *
  split at h
  · cases h
  · rename_i hpass
    rw [if_neg hpass]
    simp only [containsCorrelation, any_correlationId, Bool.or_eq_true, decide_eq_true_eq, not_or,
      not_le] at hpass
    exact ⟨rfl, hpass.1, hpass.2.1.1, hpass.2.1.2, hpass.2.2⟩

theorem proposeRequest_refuses {request : Req}
    (h : (v.proposeRequest request correlationId).1 = false) :
    (v.proposeRequest request correlationId).2 = v := by
  unfold proposeRequest at *
  split at h
  · rename_i hbusy
    rw [if_pos hbusy]
  · cases h

theorem proposeResponse_accepts {response : Resp}
    (h : (v.proposeResponse response correlationId).1 = true) :
    (v.proposeResponse response correlationId).2 =
        { v with responseProposals := v.responseProposals ++ [⟨response, correlationId⟩] } ∧
      correlationId ∈ v.active ∧ correlationId ∈ v.deliveredRequests ∧
      correlationId ∉ correlations v.responseProposals := by
  unfold proposeResponse at *
  split at h
  · cases h
  · rename_i hpass
    rw [if_neg hpass]
    simp only [any_correlationId, Bool.or_eq_true, decide_eq_true_eq, not_or, not_not] at hpass
    exact ⟨rfl, hpass.1.1, hpass.1.2, hpass.2⟩

theorem proposeResponse_refuses {response : Resp}
    (h : (v.proposeResponse response correlationId).1 = false) :
    (v.proposeResponse response correlationId).2 = v := by
  unfold proposeResponse at *
  split at h
  · rename_i hbusy
    rw [if_pos hbusy]
  · cases h

/-! ### Every call keeps the invariant -/

theorem Invariant.request (h : v.Invariant log) (request : Req) (correlationId : ℕ) :
    (v.step (.proposeRequest request correlationId)).Invariant
      (log.record v (.proposeRequest request correlationId)) := by
  simp only [step, Log.record]
  cases haccepted : (v.proposeRequest request correlationId).1 with
  | false => simpa [proposeRequest_refuses haccepted] using h
  | true =>
    obtain ⟨hstep, hbound, hactive, hproposals, hresponses⟩ := proposeRequest_accepts haccepted
    obtain ⟨hqueued, hdistinct, hcounted⟩ := h
    have hcommitted : correlationId ∉ correlations v.committedRequests :=
      fun hmem => hactive (hdistinct.mem_active.mpr (Or.inl hmem))
    simp only [hstep]
    refine ⟨⟨?_, hqueued.handed, hqueued.requestPops, hqueued.answered, hqueued.received,
      hqueued.responsePops⟩, ⟨hdistinct.active, hdistinct.split, ?_, ?_, hdistinct.responses, ?_,
      hdistinct.live, ?_⟩, hcounted⟩
    · simp [hqueued.accepted]
    · rw [← append_assoc, correlations_append]
      refine Nodup.append hdistinct.requests (nodup_singleton _) ?_
      simp [hcommitted, hproposals]
    · intro x hx
      rw [correlations_append, mem_append] at hx
      rcases hx with hx | hx
      · exact hdistinct.fresh x hx
      · rw [mem_singleton.mp hx]
        exact hactive
    · intro x hx
      obtain ⟨hxactive, hxproposals⟩ := hdistinct.responded x hx
      refine ⟨hxactive, ?_⟩
      rw [correlations_append, mem_append, not_or]
      refine ⟨hxproposals, fun heq => hresponses ?_⟩
      exact (mem_singleton.mp heq : x = correlationId) ▸ hx
    · show v.active.card + (v.requestProposals ++ [_]).length ≤ v.maxInFlight
      rw [length_append, length_singleton]
      omega

theorem Invariant.response (h : v.Invariant log) (response : Resp) (correlationId : ℕ) :
    (v.step (.proposeResponse response correlationId)).Invariant
      (log.record v (.proposeResponse response correlationId)) := by
  simp only [step, Log.record]
  cases haccepted : (v.proposeResponse response correlationId).1 with
  | false => simpa [proposeResponse_refuses haccepted] using h
  | true =>
    obtain ⟨hstep, hactive, hdelivered, hproposals⟩ := proposeResponse_accepts haccepted
    obtain ⟨hqueued, hdistinct, hcounted⟩ := h
    have hcommitted : correlationId ∉ correlations v.committedResponses :=
      fun hmem => (hdistinct.responded _ hmem).1 hactive
    simp only [hstep]
    refine ⟨⟨hqueued.accepted, hqueued.handed, hqueued.requestPops, ?_, hqueued.received,
      hqueued.responsePops⟩, ⟨hdistinct.active, hdistinct.split, hdistinct.requests,
      hdistinct.fresh, ?_, hdistinct.responded, ?_, hdistinct.bound⟩, hcounted⟩
    · simp [hqueued.answered]
    · rw [← append_assoc, correlations_append]
      refine Nodup.append hdistinct.responses (nodup_singleton _) ?_
      simp [hcommitted, hproposals]
    · intro x hx
      rw [correlations_append, mem_append] at hx
      rcases hx with hx | hx
      · exact hdistinct.live x hx
      · rw [mem_singleton.mp hx]
        exact hdelivered

theorem Invariant.popRequest (h : v.Invariant log) :
    (v.step .proposePopRequest).Invariant (log.record v .proposePopRequest) := by
  unfold step Log.record proposePopRequest
  cases hfront : v.committedRequests[v.requestPopCount]? with
  | none => simpa using h
  | some request =>
    obtain ⟨hlt, hget⟩ := List.getElem?_eq_some_iff.mp hfront
    refine ⟨⟨h.queued.accepted, ?_, hlt, h.queued.answered, h.queued.received,
      h.queued.responsePops⟩, ⟨h.distinct.active, h.distinct.split, h.distinct.requests,
      h.distinct.fresh, h.distinct.responses, h.distinct.responded, h.distinct.live,
      h.distinct.bound⟩, h.counted⟩
    simp [h.queued.handed, take_add_one, hfront]

theorem Invariant.popResponse (h : v.Invariant log) :
    (v.step .proposePopResponse).Invariant (log.record v .proposePopResponse) := by
  unfold step Log.record proposePopResponse
  cases hfront : v.committedResponses[v.responsePopCount]? with
  | none => simpa using h
  | some response =>
    obtain ⟨hlt, hget⟩ := List.getElem?_eq_some_iff.mp hfront
    refine ⟨⟨h.queued.accepted, h.queued.handed, h.queued.requestPops, h.queued.answered, ?_,
      hlt⟩, ⟨h.distinct.active, h.distinct.split, h.distinct.requests,
      h.distinct.fresh, h.distinct.responses, h.distinct.responded, h.distinct.live,
      h.distinct.bound⟩, h.counted⟩
    simp [h.queued.received, take_add_one, hfront]

section xfer

theorem correlations_take_drop (envelopes : List (Envelope α)) (n : ℕ) :
    correlations envelopes = correlations (envelopes.take n) ++ correlations (envelopes.drop n) := by
  rw [← correlations_append, take_append_drop]

theorem mem_correlations_of_drop {envelopes : List (Envelope α)} {n correlationId : ℕ}
    (h : correlationId ∈ correlations (envelopes.drop n)) :
    correlationId ∈ correlations envelopes := by
  rw [correlations_take_drop envelopes n]
  exact mem_append_right _ h

theorem Queued.xfer (h : v.Queued log) (epoch : Epoch) :
    (v.doXfer epoch).Queued (log.record v (.doXfer epoch)) := by
  have hrequests := Nat.min_eq_left h.requestPops
  have hresponses := Nat.min_eq_left h.responsePops
  refine ⟨?_, ?_, Nat.zero_le _, ?_, ?_, Nat.zero_le _⟩
  · simp only [Log.record, doXfer, hrequests, h.accepted, append_nil, append_assoc]
    rw [← append_assoc (v.committedRequests.take _), take_append_drop]
  · simp [Log.record, doXfer, h.handed]
  · simp only [Log.record, doXfer, hresponses, h.answered, append_nil, append_assoc]
    rw [← append_assoc (v.committedResponses.take _), take_append_drop]
  · simp [Log.record, doXfer, h.received]

theorem Distinct.xfer (h : v.Distinct) (hqueued : v.Queued log) (epoch : Epoch) :
    (v.doXfer epoch).Distinct := by
  have hrequestPops := Nat.min_eq_left hqueued.requestPops
  have hresponsePops := Nat.min_eq_left hqueued.responsePops
  have hrequests := h.requests
  have hresponses := h.responses
  rw [correlations_append, correlations_take_drop v.committedRequests v.requestPopCount] at hrequests
  rw [correlations_append, correlations_take_drop v.committedResponses v.responsePopCount]
    at hresponses
  -- a response answers a delivered request, which is no longer queued and not proposed anew
  have hlive : ∀ x ∈ correlations v.responseProposals, x ∉ correlations v.committedRequests ∧
      x ∉ correlations v.requestProposals := fun x hx =>
    ⟨fun hmem => h.split x hmem (h.live x hx),
      fun hmem => h.fresh x hmem (h.mem_active.mpr (Or.inr (h.live x hx)))⟩
  refine ⟨?_, ?_, ?_, ?_, ?_, ?_, ?_, ?_⟩
  · ext x
    have hactive := @mem_active _ _ _ h x
    have hlive := hlive x
    have hsplit := correlations_take_drop v.committedRequests v.requestPopCount
    simp only [doXfer, hrequestPops, mem_union, mem_sdiff, mem_toFinset,
      correlations_append, mem_append]
    rw [hsplit, mem_append] at hactive hlive
    tauto
  · intro x hx
    simp only [doXfer, hrequestPops, correlations_append, mem_append] at hx
    simp only [doXfer, hrequestPops, mem_union, mem_sdiff, mem_toFinset]
    rintro ⟨hdelivered | htaken, -⟩
    · rcases hx with hx | hx
      · exact h.split x (mem_correlations_of_drop hx) hdelivered
      · exact h.fresh x hx (h.mem_active.mpr (Or.inr hdelivered))
    · rw [append_assoc] at hrequests
      exact disjoint_of_nodup_append hrequests htaken (mem_append.mpr hx)
  · simp only [doXfer, hrequestPops, correlations_append, append_nil]
    rw [append_assoc] at hrequests
    exact hrequests.of_append_right
  · simp [doXfer]
  · simp only [doXfer, hresponsePops, correlations_append, append_nil]
    rw [append_assoc] at hresponses
    exact hresponses.of_append_right
  · intro x hx
    simp only [doXfer, correlations_append, mem_append] at hx
    simp only [doXfer, mem_union, mem_sdiff, mem_toFinset, correlations_nil,
      not_mem_nil, not_false_eq_true, and_true, not_and, not_not]
    rcases hx with hx | hx
    · have hresponded := h.responded x (mem_correlations_of_drop hx)
      tauto
    · exact fun _ => hx
  · simp [doXfer]
  · have hbound := h.bound
    have hcard : ((v.active ∪ (correlations v.requestProposals).toFinset) \
        (correlations v.responseProposals).toFinset).card ≤
          v.active.card + v.requestProposals.length := by
      refine (Finset.card_le_card Finset.sdiff_subset).trans ((Finset.card_union_le _ _).trans ?_)
      have hlength := toFinset_card_le (correlations v.requestProposals)
      rw [correlations, length_map] at hlength
      exact Nat.add_le_add_left hlength _
    exact hcard.trans hbound

theorem Counted.xfer (h : v.Counted log) (hdistinct : v.Distinct) (hqueued : v.Queued log)
    (epoch : Epoch) : (v.doXfer epoch).Counted (log.record v (.doXfer epoch)) := by
  intro x
  have hrequestPops := Nat.min_eq_left hqueued.requestPops
  have hresponsePops := Nat.min_eq_left hqueued.responsePops
  have hcount := h x
  have hrequests := hdistinct.requests
  have hresponses := hdistinct.responses
  rw [correlations_append] at hrequests hresponses
  have hcommitted := hrequests.of_append_left
  have hproposals := hresponses.of_append_right
  rw [correlations_take_drop v.committedRequests v.requestPopCount] at hcommitted
  have htaken := hcommitted.of_append_left.count (a := x)
  have hresponded := hproposals.count (a := x)
  have hsplit := hdistinct.split x
  have hlive := hdistinct.live x
  rw [correlations_take_drop v.committedRequests v.requestPopCount, mem_append] at hsplit
  simp only [Log.record, doXfer, hrequestPops, hresponsePops, correlations_append,
    count_append, mem_sdiff, mem_union, mem_toFinset] at hcount ⊢
  rw [correlations_take_drop v.committedResponses v.responsePopCount, count_append] at hcount
  rw [htaken, hresponded]
  by_cases hd : x ∈ v.deliveredRequests <;>
    by_cases hp : x ∈ correlations v.responseProposals <;>
    by_cases ht : x ∈ correlations (v.committedRequests.take v.requestPopCount) <;>
    simp_all <;> omega

end xfer

theorem invariant_start (maxInFlight : ℕ) :
    ({ maxInFlight := maxInFlight } : RequestResponseLink Req Resp).Invariant {} where
  queued := ⟨rfl, rfl, le_rfl, rfl, rfl, le_rfl⟩
  distinct := by constructor <;> simp
  counted := fun correlationId => by simp

theorem Invariant.kept (h : v.Invariant log) (call : Call Req Resp) :
    (v.step call).Invariant (log.record v call) := by
  cases call with
  | proposeRequest request correlationId => exact h.request request correlationId
  | proposePopRequest => exact h.popRequest
  | proposeResponse response correlationId => exact h.response response correlationId
  | proposePopResponse => exact h.popResponse
  | doXfer epoch =>
    exact ⟨h.queued.xfer epoch, h.distinct.xfer h.queued epoch,
      h.counted.xfer h.distinct h.queued epoch⟩
  | reset => exact invariant_start v.maxInFlight

theorem step_maxInFlight (call : Call Req Resp) : (v.step call).maxInFlight = v.maxInFlight := by
  cases call with
  | proposeRequest request correlationId =>
    unfold step proposeRequest
    dsimp only
    split <;> rfl
  | proposeResponse response correlationId =>
    unfold step proposeResponse
    dsimp only
    split <;> rfl
  | proposePopRequest =>
    unfold step proposePopRequest
    dsimp only
    split <;> rfl
  | proposePopResponse =>
    unfold step proposePopResponse
    dsimp only
    split <;> rfl
  | doXfer epoch => rfl
  | reset => rfl

theorem Run.invariant {maxInFlight : ℕ} (h : Run maxInFlight log v) :
    v.Invariant log ∧ v.maxInFlight = maxInFlight := by
  induction h with
  | start => exact ⟨invariant_start maxInFlight, rfl⟩
  | call call _ ih => exact ⟨ih.1.kept call, (step_maxInFlight call).trans ih.2⟩

theorem Invariant.validate (h : v.Invariant log) : v.validate = true := by
  have hbound := h.distinct.bound
  have hle : v.active.card ≤ v.maxInFlight := by omega
  have hdelivered : ∀ correlationId ∈ v.deliveredRequests, correlationId ∈ v.active :=
    fun _ hx => h.distinct.mem_active.mpr (Or.inr hx)
  have hcommitted : ∀ request ∈ v.committedRequests, request.correlationId ∈ v.active :=
    fun request hx => h.distinct.mem_active.mpr (Or.inl (mem_map_of_mem hx))
  have hresponses : ∀ response ∈ v.responseProposals,
      response.correlationId ∈ v.deliveredRequests :=
    fun response hx => h.distinct.live _ (mem_map_of_mem hx)
  simp only [RequestResponseLink.validate, Bool.and_eq_true, Bool.not_eq_true',
    Bool.or_eq_false_iff, decide_eq_false_iff_not, decide_eq_true_eq, all_eq_true, not_lt]
  exact ⟨⟨⟨⟨hle, hbound⟩, hdelivered⟩, hcommitted⟩,
    fun response hx => ⟨hdelivered _ (hresponses response hx), hresponses response hx⟩⟩

/-- What the correlations promise in a state of a run. -/
structure Correlated (maxInFlight : ℕ) (log : Log Req Resp) (v : RequestResponseLink Req Resp) :
    Prop where
  /-- The live correlations are those of the committed requests, all different, and those of the
  delivered requests that have no answer. -/
  nodup : (correlations v.committedRequests).Nodup
  active_eq : v.active = (correlations v.committedRequests).toFinset ∪ v.deliveredRequests
  disjoint : ∀ correlationId ∈ correlations v.committedRequests,
    correlationId ∉ v.deliveredRequests
  unanswered : ∀ correlationId, correlationId ∈ v.deliveredRequests ↔
    (correlations log.delivered).count correlationId =
      (correlations (log.closed ++ v.committedResponses)).count correlationId + 1
  inFlight_le : v.inFlight + v.requestProposals.length ≤ maxInFlight
  /-- The accepted requests are handed out in their order, each once. -/
  requests_once : log.accepted =
    log.handed ++ (v.committedRequests.drop v.requestPopCount ++ v.requestProposals)
  /-- No more responses than delivered requests. -/
  answered_once : ∀ correlationId,
    (correlations log.answered).count correlationId ≤
      (correlations log.delivered).count correlationId
  response_live : ∀ correlationId ∈ correlations v.responseProposals,
    correlationId ∈ v.active ∧ correlationId ∈ v.deliveredRequests
  /-- The accepted responses are handed out in their order, each once. -/
  responses_once : log.answered =
    log.received ++ (v.committedResponses.drop v.responsePopCount ++ v.responseProposals)
  /-- A correlation is accepted anew only when the responses to all its requests have been popped
  and committed. -/
  accepted_anew : ∀ request correlationId, (v.proposeRequest request correlationId).1 = true →
    (correlations log.accepted).count correlationId =
      (correlations log.closed).count correlationId
  valid : v.validate = true

/-- Every run keeps requests and responses correlated. -/
theorem Run.correlated {maxInFlight : ℕ} (h : Run maxInFlight log v) :
    Correlated maxInFlight log v := by
  obtain ⟨hinvariant, hmax⟩ := h.invariant
  obtain ⟨hqueued, hdistinct, hcounted⟩ := hinvariant
  have hresponses := hdistinct.responses
  rw [correlations_append] at hresponses
  refine ⟨?_, hdistinct.active, hdistinct.split, ?_, hmax ▸ hdistinct.bound, ?_, ?_, ?_, ?_, ?_,
    Invariant.validate ⟨hqueued, hdistinct, hcounted⟩⟩
  · have hrequests := hdistinct.requests
    rw [correlations_append] at hrequests
    exact hrequests.of_append_left
  · intro x
    rw [hcounted x]
    split
    · simp [*]
    · simp [*]
  · rw [hqueued.accepted, hqueued.handed, append_assoc,
      ← append_assoc (v.committedRequests.take _), take_append_drop]
  · intro x
    have hcount := hcounted x
    have hlive := hdistinct.live x
    rw [hqueued.answered, correlations_append, correlations_append, count_append,
      count_append, hresponses.of_append_right.count]
    rw [correlations_append, count_append] at hcount
    by_cases hproposed : x ∈ correlations v.responseProposals
    · rw [if_pos (hlive hproposed)] at hcount
      rw [if_pos hproposed]
      omega
    · rw [if_neg hproposed]
      omega
  · exact fun x hx => ⟨hdistinct.mem_active.mpr (Or.inr (hdistinct.live x hx)), hdistinct.live x hx⟩
  · rw [hqueued.answered, hqueued.received, append_assoc,
      ← append_assoc (v.committedResponses.take _), take_append_drop]
  · intro request x haccepted
    obtain ⟨-, -, hactive, hproposals, hcommitted⟩ := proposeRequest_accepts haccepted
    have hcount := hcounted x
    rw [hdistinct.mem_active, not_or] at hactive
    rw [if_neg hactive.2, correlations_append, count_append,
      count_eq_zero_of_not_mem hcommitted] at hcount
    rw [hqueued.accepted, correlations_append, correlations_append, count_append,
      count_append, count_eq_zero_of_not_mem hactive.1,
      count_eq_zero_of_not_mem hproposals]
    omega

/-- A request that is delivered and answered, with the same correlation refused meanwhile. -/
theorem correlated_answered :
    Correlated 2
      { accepted := [⟨"load", 5⟩], handed := [⟨"load", 5⟩], delivered := [⟨"load", 5⟩],
        answered := [⟨1, 5⟩] }
      (((((({ maxInFlight := 2 } : RequestResponseLink String ℕ).step
        (.proposeRequest "load" 5)).step (.proposeRequest "store" 5)).step (.doXfer ⟨0, 0⟩)).step
        .proposePopRequest).step (.doXfer ⟨1, 0⟩) |>.step (.proposeResponse 1 5)) :=
  have hstart : Run 2 {} ({ maxInFlight := 2 } : RequestResponseLink String ℕ) := .start
  have hrun := Run.call (.proposeResponse 1 5) (.call (.doXfer ⟨1, 0⟩) (.call .proposePopRequest
    (.call (.doXfer ⟨0, 0⟩) (.call (.proposeRequest "store" 5)
      (.call (.proposeRequest "load" 5) hstart)))))
  hrun.correlated

end RequestResponseLink

end AgenticCircuit.Gfsim
