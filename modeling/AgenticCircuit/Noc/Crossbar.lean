import AgenticCircuit.Noc.Transfers

/-! # The crossbar

`_crossbar_declaration`: queues for every input and every output on each virtual channel, and
one scheduler that moves the heads of the input queues to the outputs they name.  At most one
packet leaves an input and one enters an output in an evaluation, over all virtual channels.

* **`Crossbar`** are the parameters the frontend accepts.
* **`scheduler`**: the transfers of one evaluation.
* **`crossbar_served`**: the crossbar delivers, whatever producers and consumers do. -/

namespace AgenticCircuit.Noc

open Option

open FifoNetwork (Flit Traffic Routes)
open Relation (ReflTransGen)

/-- The parameters of an accepted `Crossbar`. -/
structure Crossbar where
  inputPorts : ℕ
  outputPorts : ℕ
  virtualChannels : ℕ
  ingressDepth : ℕ
  egressDepth : ℕ
  routeOffset : ℕ
  routeWidth : ℕ
  ports_pos : 1 ≤ inputPorts ∧ 1 ≤ outputPorts
  virtualChannels_pos : 1 ≤ virtualChannels
  depths_pos : 1 ≤ ingressDepth ∧ 1 ≤ egressDepth
  route_fits : 1 ≤ routeWidth ∧ routeOffset + routeWidth ≤ 32
  outputs_encoded : outputPorts ≤ 2 ^ routeWidth
  size_le : inputPorts * outputPorts * virtualChannels ≤ 4096

namespace Crossbar

/-- `@in{i}_vc{vc}` and `@out{o}_vc{vc}`. -/
inductive Queue
  | input (i vc : ℕ)
  | output (o vc : ℕ)
deriving DecidableEq

variable (P : Crossbar)

def depth : Queue → ℕ
  | .input _ _ => P.ingressDepth
  | .output _ _ => P.egressDepth

/-- `%dst`. -/
def dst (a : BitVec 32) : ℕ :=
  (a >>> P.routeOffset &&& BitVec.ofNat 32 (2 ^ P.routeWidth - 1)).toNat

section schedulers

variable (queues : Queue → List (Flit Queue (BitVec 32)))

/-- `ac.space`, an `i32`. -/
def space (q : Queue) : ℤ :=
  if P.depth q ≤ (queues q).length then 0
  else (BitVec.ofNat 32 (P.depth q - (queues q).length)).toInt

def writable (o vc : ℕ) : Bool := decide (P.space queues (.output o vc) > 0)

/-- `%request_v{vc}_o{o}_i{i}`. -/
def request (vc o i : ℕ) : Bool :=
  ((queues (.input i vc)).head?.any fun a => decide (P.dst a.payload = o)) &&
    P.writable queues o vc

/-- The candidates in the order virtual channel, output, input. -/
def candidates : List (Candidate Queue) :=
  (List.range P.virtualChannels).flatMap fun vc =>
    (List.range P.outputPorts).flatMap fun o =>
      (List.range P.inputPorts).map fun i =>
        ⟨P.request queues vc o i, .input i vc, .output o vc,
          ["pin" ++ toString i, "pout" ++ toString o]⟩

/-- The transfers that fire in one evaluation of the process `@scheduler`. -/
def scheduler : List (Queue × Queue × Flit Queue (BitVec 32)) :=
  moves P.depth queues (P.candidates queues)

end schedulers

/-- The scheduler is evaluated, a producer fills an input or a consumer empties an output. -/
inductive Step : Traffic Queue (BitVec 32) → Traffic Queue (BitVec 32) → Prop
  | evaluate {s : Traffic Queue (BitVec 32)} : Step s (s.commit (P.scheduler s.queues))
  | accept {s : Traffic Queue (BitVec 32)} {i vc : ℕ} (a : BitVec 32) (hi : i < P.inputPorts)
      (hvc : vc < P.virtualChannels) (hroom : (s.queues (.input i vc)).length < P.ingressDepth) :
      Step s (s.accept (.input i vc) a)
  | consume {s : Traffic Queue (BitVec 32)} {o vc : ℕ} {a : Flit Queue (BitVec 32)}
      {rest : List (Flit Queue (BitVec 32))} (ho : o < P.outputPorts)
      (hvc : vc < P.virtualChannels) (hhead : s.queues (.output o vc) = a :: rest) :
      Step s (s.consume (.output o vc) a)

def Reachable (s : Traffic Queue (BitVec 32)) : Prop := ReflTransGen P.Step Traffic.empty s

/-- The output a packet names, on the virtual channel on which it entered. -/
def target (a : Flit Queue (BitVec 32)) : Option Queue :=
  match a.origin with
  | .input _ vc =>
    if P.dst a.payload < P.outputPorts then some (.output (P.dst a.payload) vc) else none
  | .output _ _ => none

/-! ### Routes -/

def next (c : Queue) (a : BitVec 32) : Option Queue :=
  match c with
  | .input _ vc => if P.dst a < P.outputPorts then some (.output (P.dst a) vc) else none
  | .output _ _ => none

def routes : Routes Queue (BitVec 32) where
  next := P.next
  input c := ∃ i < P.inputPorts, ∃ vc < P.virtualChannels, c = .input i vc
  output c := ∃ o < P.outputPorts, ∃ vc < P.virtualChannels, c = .output o vc

def toGo (c : Queue) (_ : BitVec 32) : ℕ :=
  match c with
  | .input _ _ => 1
  | .output _ _ => 0

variable {P} {s t : Traffic Queue (BitVec 32)}

theorem crossbar_shortens : P.routes.Shortens toGo where
  decreases := by
    intro c d a h
    cases c with
    | output => cases h
    | input i vc =>
      obtain ⟨_, h⟩ := ite_none_right_eq_some.mp h
      rw [← some.inj h]
      exact Nat.one_pos
  output := by
    rintro c ⟨o, _, vc, _, rfl⟩ a
    rfl

theorem crossbar_leads : P.routes.Leads P.target where
  arrives := by
    rintro ⟨origin, serial, payload⟩ c k ⟨i, _, vc, _, rfl⟩ hpath ⟨o, _, vc', _, rfl⟩
    cases k with
    | zero => cases hpath
    | succ k =>
      obtain ⟨d, hd, hnext⟩ := bind_eq_some_iff.mp hpath
      cases d with
      | output => cases hnext
      | input i' vc'' =>
        cases k with
        | zero =>
          obtain ⟨rfl, rfl⟩ := Queue.input.inj (some.inj hd)
          exact hnext
        | succ k =>
          obtain ⟨e, _, hback⟩ := bind_eq_some_iff.mp hd
          cases e with
          | output => cases hback
          | input =>
            obtain ⟨_, hback⟩ := ite_none_right_eq_some.mp hback
            cases hback
  alike := by
    rintro ⟨origin, serial, payload⟩ ⟨_, serial', payload'⟩ c ⟨i, _, vc, _, rfl⟩ rfl ha hb
    obtain ⟨hvalid, ha⟩ := ite_none_right_eq_some.mp ha
    obtain ⟨hvalid', hb⟩ := ite_none_right_eq_some.mp hb
    have hdst : P.dst payload = P.dst payload' := by
      have heq := ha.trans hb.symm
      simpa using heq
    refine ⟨rfl, fun d => ?_⟩
    cases d with
    | output => rfl
    | input => simp [routes, next, hdst]
  stays := by
    rintro ⟨origin, serial, payload⟩ ⟨i, _, vc, _, rfl⟩ hnone
    exact hnone

/-! ### The emitted scheduler -/

theorem mem_portCandidates {c : Candidate Queue} : c ∈ P.candidates s.queues ↔
    ∃ vc < P.virtualChannels, ∃ o < P.outputPorts, ∃ i < P.inputPorts,
      c = ⟨P.request s.queues vc o i, .input i vc, .output o vc,
        ["pin" ++ toString i, "pout" ++ toString o]⟩ := by
  unfold candidates
  simp [eq_comm]

theorem candidates_ported : Ported (P.candidates s.queues) := by
  intro c hc d hd hshare
  obtain ⟨vc, _, o, _, i, _, rfl⟩ := mem_portCandidates.mp hc
  obtain ⟨vc', _, o', _, i', _, rfl⟩ := mem_portCandidates.mp hd
  rcases hshare with heq | heq
  · obtain ⟨rfl, _⟩ := Queue.input.inj heq
    exact ⟨"pin" ++ toString i, by simp, by simp⟩
  · obtain ⟨rfl, _⟩ := Queue.output.inj heq
    exact ⟨"pout" ++ toString o, by simp, by simp⟩

/-- A transfer that fires moves the head of an input to the output it names. -/
theorem next_of_mem_scheduler {c d : Queue} {a : Flit Queue (BitVec 32)}
    (hm : (c, d, a) ∈ P.scheduler s.queues) :
    (s.queues c).head? = some a ∧ P.next c a.payload = some d := by
  obtain ⟨x, hx, hgrant, rfl, rfl, hhead, _⟩ := candidates_ported.mem_moves.mp hm
  have hrequest := request_of_greedy hx hgrant
  obtain ⟨vc, _, o, ho, i, _, heq⟩ := mem_portCandidates.mp (mem_of_mem_zip hx)
  rw [heq] at hrequest hhead ⊢
  refine ⟨hhead, ?_⟩
  obtain ⟨hroute, _⟩ := Bool.and_eq_true_iff.mp hrequest
  rw [hhead] at hroute
  obtain rfl : P.dst a.payload = o := by simpa using hroute
  exact if_pos ho

theorem Step.traffic_steps (hstep : P.Step s t) : ReflTransGen (Traffic.Step P.routes) s t := by
  cases hstep with
  | evaluate =>
    refine Traffic.commit_steps crossbar_shortens candidates_ported.nodup_sources ?_
    rintro ⟨c, d, a⟩ hm
    exact next_of_mem_scheduler hm
  | accept a hi hvc hroom => exact .single (.accept _ a ⟨_, hi, _, hvc, rfl⟩)
  | consume ho hvc hhead => exact .single (.consume ⟨_, ho, _, hvc, rfl⟩ hhead)

theorem delivers (hs : P.Reachable s) : s.Delivers P.routes := by
  induction hs with
  | refl => exact Traffic.empty_delivers
  | tail _ hstep ih => exact ih.steps crossbar_shortens hstep.traffic_steps

/-- The crossbar delivers every packet once, in order, at the output it names. -/
theorem crossbar_served (hs : P.Reachable s) : s.Served P.target :=
  (delivers hs).served crossbar_leads

end Crossbar

end AgenticCircuit.Noc
