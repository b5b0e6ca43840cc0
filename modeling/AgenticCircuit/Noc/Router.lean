import AgenticCircuit.Noc.Transfers

/-! # Routers

The schedulers that the compiler-native generators emit, one process for each node of a
network.  A scheduler reads its queues, chooses transfers through arbiters and proposes them;
`evaluate` is one evaluation of its body, from the committed contents of all queues to its
proposals.

* **Queues.**  `Channel` names the data queues of a ring or mesh, `Register` the queues of
  depth two in which routers keep integers: credits, the state of an outgoing channel, the
  stage of an incoming one and the round-robin pointers.
* **`nocScheduler`** is the scheduler of a single-stage router, with or without credits.
* **`nocIqScheduler`** is the scheduler of an input-queued router: a packet waits for the
  allocation of its outgoing channel, then for the switch.

A queue that is empty reads as `0`.  No value leaves the range of 32 bits, so the integers are
unbounded here. -/

namespace AgenticCircuit.Noc

open Dialect (Policy greedyGrants roundRobinGrants roundRobinWinner)
open FifoNetwork (Flit Traffic)

/-! ### Networks on chip -/

inductive Port where
  | loc | north | east | south | west | cw
deriving DecidableEq

def Port.name : Port → String
  | loc => "local"
  | north => "north"
  | east => "east"
  | south => "south"
  | west => "west"
  | cw => "cw"

/-- The data queues: `node{n}_local_in`, `node{n}_local_out` and `link_n{s}_to_n{t}_{port}`. -/
inductive Channel where
  | localIn (node : ℕ)
  | localOut (node : ℕ)
  | link (source target : ℕ) (port : Port)
deriving DecidableEq

/-- The state queues: `credit_n{s}_to_n{t}_for_{port}`, `node{n}_vc_{port}`,
`node{n}_pipe_{port}`, `node{n}_rr_{port}` and `node{n}_va_rr_{port}`. -/
inductive Register where
  | credit (source target : ℕ) (port : Port)
  | vc (node : ℕ) (port : Port)
  | pipe (node : ℕ) (port : Port)
  | rr (node : ℕ) (port : Port)
  | vaRr (node : ℕ) (port : Port)
deriving DecidableEq

/-- The entries of every state queue. -/
def registerDepth : ℕ := 2

structure NoCIngress where
  name : Port
  queue : Channel
  returnCreditQueue : Option Register := none
deriving DecidableEq

structure NoCEgress where
  name : Port
  queue : Channel
  vcStateQueue : Option Register := none
  receiveCreditQueue : Option Register := none
deriving DecidableEq

inductive FlowControl where
  | readyValid
  | credit
deriving DecidableEq

inductive RouterPipeline where
  | singleStageElastic
  | inputQueued
deriving DecidableEq

structure NoCTiming where
  flowControl : FlowControl := .readyValid
  routerPipeline : RouterPipeline := .singleStageElastic
  creditDelay : ℕ := 0
  vcAllocDelay : ℕ := 0
  swAllocDelay : ℕ := 0
  waitForTailCredit : Bool := false

/-- A scheduler as the generator emits it.  `route e a` is the decoded request `%route_e` for
the head `a` of an ingress, without the validity of the head itself. -/
structure Scheduler (φ : Type) where
  node : ℕ
  ingresses : List NoCIngress
  egresses : List NoCEgress
  route : Port → φ → Bool
  arbitration : Policy := .greedyFixedPriority
  timing : NoCTiming := {}

/-- The contents of all queues between two evaluations.  `evaluated` is history. -/
structure Net (φ : Type) where
  traffic : Traffic Channel φ
  registers : Register → List ℤ
  evaluated : ℕ → Bool

/-- What one evaluation of a scheduler proposes; `asserted` are the results of `ac.assert`. -/
structure Proposals (φ : Type) where
  moves : List (Channel × Channel × Flit Channel φ)
  received : List Register
  sent : List (Register × ℤ)
  asserted : List Bool

section schedulers

variable {φ : Type} (depth : ℕ) (n : Scheduler φ) (s : Net φ)

/-! ### Reading the queues -/

/-- `ac.try_recv`: the value and whether there was one. -/
def tryRecv (q : Register) : ℤ × Bool :=
  match s.registers q with
  | [] => (0, false)
  | value :: _ => (value, true)

/-- `ac.try_send` after the sends `before` of the same evaluation. -/
def sendAccepted (before : List (Register × ℤ)) (q : Register) : Bool :=
  decide ((s.registers q).length + before.countP (fun x => x.1 = q) < registerDepth)

/-- `%route_{egress}_{ingress}`. -/
def routeRequest (e : NoCEgress) (i : NoCIngress) : Bool :=
  (s.traffic.queues i.queue).head?.any fun a => n.route e.name a.payload

/-- `ac.space`. -/
def space (q : Channel) : ℤ :=
  if depth ≤ (s.traffic.queues q).length then 0 else depth - (s.traffic.queues q).length

def writable (e : NoCEgress) : Bool := decide (space depth s e.queue > 0)

/-- The resource of an incoming port. -/
def pin (node : ℕ) (port : Port) : String := "node" ++ toString node ++ "_pin_" ++ port.name

/-- The resource of an outgoing port. -/
def pout (node : ℕ) (port : Port) : String := "node" ++ toString node ++ "_pout_" ++ port.name

/-- The candidates in the order output first, ingress second. -/
def candidates (requests : NoCEgress → List Bool) : List (Candidate Channel) :=
  n.egresses.flatMap fun e => (n.ingresses.zip (requests e)).map fun x =>
    ⟨x.2, x.1.queue, e.queue, [pin n.node x.1.name, pout n.node e.name]⟩

/-- The transfers of an evaluation, for each pair of an outgoing and an incoming port. -/
def fires (requests : NoCEgress → List Bool) : List ((NoCEgress × NoCIngress) × Bool) :=
  (n.egresses.flatMap fun e => n.ingresses.map fun i => (e, i)).zip
    ((transfers (fun _ => depth) s.traffic.queues (candidates n requests)).map Option.isSome)

/-- A transfer into `e` fires. -/
def firedInto (requests : NoCEgress → List Bool) (e : NoCEgress) : Bool :=
  (fires depth n s requests).any fun x => decide (x.1.1.name = e.name) && x.2

/-- A transfer out of `i` fires. -/
def firedFrom (requests : NoCEgress → List Bool) (i : NoCIngress) : Bool :=
  (fires depth n s requests).any fun x => decide (x.1.2.name = i.name) && x.2

/-- The credits an evaluation returns: one for each link that a packet leaves. -/
def returnedCredits (requests : NoCEgress → List Bool) : List (Register × ℤ) :=
  if !n.timing.waitForTailCredit then []
  else n.ingresses.filterMap fun i =>
    if firedFrom depth n s requests i then
      i.returnCreditQueue.map fun q => (q, (n.timing.creditDelay : ℤ))
    else none

/-- `ac.assert` on the acceptance of every returned credit, sent after `before`. -/
def creditAssertions (before credits : List (Register × ℤ)) : List Bool :=
  credits.zipIdx.map fun x => sendAccepted s (before ++ credits.take x.2) x.1.1

/-! ### The single-stage scheduler -/

/-- The egress waits for a credit after each packet. -/
def creditEgress (e : NoCEgress) : Bool :=
  n.timing.waitForTailCredit && e.receiveCreditQueue.isSome

def recvFrom (q : Option Register) : ℤ × Bool := (q.map (tryRecv s)).getD (0, false)

/-- `%vc_effective_{egress}`: the state of the link, aged by one tick or set by a credit. -/
def vcEffective (e : NoCEgress) : ℤ :=
  let state := (recvFrom s e.vcStateQueue).1
  let credit := recvFrom s e.receiveCreditQueue
  let aged := if state > 0 then state - 1 else state
  if credit.2 then credit.1 else aged

/-- `%vc_wait`. -/
def vcWait : ℤ := -1

def request (e : NoCEgress) (i : NoCIngress) : Bool :=
  let request := routeRequest n s e i && writable depth s e
  if creditEgress n e then request && decide (vcEffective s e = 0) else request

/-- The positions from `start` up to `target`, around `count`. -/
def earlierPositions (count start target : ℕ) : List ℕ :=
  (List.range ((target + count - start) % count)).map fun k => (start + k) % count

/-- The combinational round robin: the request at `target` is chosen when the pointer stands at
some position and no request lies between. -/
def rrSelected (requests : List Bool) (pointer : ℤ) (target : ℕ) : Bool :=
  (List.range requests.length).any fun start =>
    decide (pointer = start) &&
      !((earlierPositions requests.length start target).any fun p => requests.getD p false) &&
      requests.getD target false

def rrPointer (e : NoCEgress) : ℤ := (tryRecv s (.rr n.node e.name)).1

/-- What the transfer arbiter is asked for at an egress. -/
def arbiterRequests (e : NoCEgress) : List Bool :=
  let requests := n.ingresses.map (request depth n s e)
  match n.arbitration with
  | .greedyFixedPriority => requests
  | .roundRobin => (List.range requests.length).map (rrSelected requests (rrPointer n s e))

/-- The grants of the transfer arbiter at an egress. -/
def grantsAt (requests : NoCEgress → List Bool) (e : NoCEgress) : List Bool :=
  (((n.egresses.flatMap fun e => n.ingresses.map fun i => (e, i)).zip
    (grants (candidates n requests))).filter fun x => decide (x.1.1.name = e.name)).map Prod.snd

/-- `%rr_next_pointer`: the position after the last granted one. -/
def rrNext (e : NoCEgress) : ℤ :=
  (grantsAt n (arbiterRequests depth n s) e).zipIdx.foldl
    (fun pointer x => if x.1 then (((x.2 + 1) % n.ingresses.length : ℕ) : ℤ) else pointer)
    (rrPointer n s e)

/-- `_noc_scheduler`. -/
def nocScheduler : Proposals φ :=
  let requests := arbiterRequests depth n s
  let creditEgresses := n.egresses.filter (creditEgress n)
  let states := creditEgresses.filterMap fun e => e.vcStateQueue.map fun q =>
    (q, if firedInto depth n s requests e then vcWait else vcEffective s e)
  let credits := returnedCredits depth n s requests
  let pointers := if n.arbitration = .roundRobin then
      n.egresses.map fun e => (Register.rr n.node e.name, rrNext depth n s e)
    else []
  { moves := moves (fun _ => depth) s.traffic.queues (candidates n requests)
    received := creditEgresses.flatMap
        (fun e => e.vcStateQueue.toList ++ e.receiveCreditQueue.toList) ++
      pointers.map Prod.fst
    sent := states ++ credits ++ pointers
    asserted := creditAssertions s states credits }

/-! ### The input-queued scheduler -/

def iqWaitCredit : ℤ := -128
def iqVaBase : ℤ := 100
def iqSaBase : ℤ := 200

/-- `%pipe_effective_{ingress}`: the stage of an ingress, counted down by one tick. -/
def pipeEffective (i : NoCIngress) : ℤ :=
  let state := (tryRecv s (.pipe n.node i.name)).1
  let vaCounting := decide (state > iqVaBase) && decide (state < iqSaBase)
  let saCounting := decide (state > iqSaBase)
  if vaCounting || saCounting then state - 1 else state

/-- `%owner_effective_{egress}`: the owner of an egress, or the age of its credit. -/
def ownerEffective (e : NoCEgress) : ℤ :=
  let state := (recvFrom s e.vcStateQueue).1
  if creditEgress n e then
    let credit := recvFrom s e.receiveCreditQueue
    let counting := decide (state > iqWaitCredit) && decide (state < 0)
    let aged := if counting then state + 1 else state
    if credit.2 then 0 - credit.1 else aged
  else state

/-- An ingress asks for the allocation of an egress. -/
def vaRequest (e : NoCEgress) (i : NoCIngress) : Bool :=
  routeRequest n s e i && decide (pipeEffective n s i = iqVaBase) &&
    decide (ownerEffective n s e = 0)

/-- The resource of the allocation of an egress. -/
def vaPout (node : ℕ) (port : Port) : String := "node" ++ toString node ++ "_va_pout_" ++ port.name

/-- The pointer of the round-robin helper, as its argument of type `std::uint32_t`. -/
def vaPointer (e : NoCEgress) : ℕ :=
  ((tryRecv s (.vaRr n.node e.name)).1 % 2 ^ 32).toNat

/-- The grants of the arbiter of one egress. -/
def vaGrants (e : NoCEgress) : List Bool :=
  let requests := n.ingresses.map (vaRequest n s e)
  match n.arbitration with
  | .greedyFixedPriority =>
    greedyGrants (fun _ => false) (requests.map fun r => (r, [vaPout n.node e.name]))
  | .roundRobin => roundRobinGrants requests (vaPointer n s e)

/-- The next state of the round-robin helper. -/
def vaNext (e : NoCEgress) : ℤ :=
  let requests := n.ingresses.map (vaRequest n s e)
  let start := vaPointer n s e % 2 ^ 32 % requests.length
  match roundRobinWinner requests start with
  | some winner => ((winner + 1) % requests.length : ℕ)
  | none => (start : ℕ)

/-- An ingress that owns an egress asks for the switch; owners are numbered from one. -/
def saRequests (e : NoCEgress) : List Bool :=
  n.ingresses.zipIdx.map fun x =>
    routeRequest n s e x.1 && decide (pipeEffective n s x.1 = iqSaBase) &&
      decide (ownerEffective n s e = (x.2 + 1 : ℕ)) && writable depth s e

/-- `%owner_next_{egress}`. -/
def ownerNext (e : NoCEgress) : ℤ :=
  let current := (vaGrants n s e).zipIdx.foldl
    (fun owner x => if x.1 then ((x.2 + 1 : ℕ) : ℤ) else owner) (ownerEffective n s e)
  if firedInto depth n s (saRequests depth n s) e then
    if creditEgress n e then iqWaitCredit else 0
  else current

/-- Some arbiter has granted the ingress at position `index`. -/
def vaGranted (index : ℕ) : Bool := n.egresses.any fun e => (vaGrants n s e).getD index false

/-- `%pipe_next_{ingress}`. -/
def pipeNext (i : NoCIngress) (index : ℕ) : ℤ :=
  let start := decide (pipeEffective n s i = 0) && n.egresses.any fun e => routeRequest n s e i
  let afterStart := if start then iqVaBase + n.timing.vcAllocDelay else pipeEffective n s i
  let afterVa := if vaGranted n s index then iqSaBase + n.timing.swAllocDelay else afterStart
  if firedFrom depth n s (saRequests depth n s) i then 0 else afterVa

/-- `_noc_iq_scheduler`. -/
def nocIqScheduler : Proposals φ :=
  let requests := saRequests depth n s
  let credits := returnedCredits depth n s requests
  let owners := n.egresses.filterMap fun e => e.vcStateQueue.map fun q => (q, ownerNext depth n s e)
  let pipes := n.ingresses.zipIdx.map fun x =>
    (Register.pipe n.node x.1.name, pipeNext depth n s x.1 x.2)
  let pointers := if n.arbitration = .roundRobin then
      n.egresses.map fun e => (Register.vaRr n.node e.name, vaNext n s e)
    else []
  { moves := moves (fun _ => depth) s.traffic.queues (candidates n requests)
    received := pipes.map Prod.fst ++
      n.egresses.flatMap (fun e => e.vcStateQueue.toList ++
        if creditEgress n e then e.receiveCreditQueue.toList else []) ++
      pointers.map Prod.fst
    sent := credits ++ owners ++ pipes ++ pointers
    asserted := creditAssertions s [] credits }

/-- One evaluation of a scheduler. -/
def evaluate : Proposals φ :=
  match n.timing.routerPipeline with
  | .singleStageElastic => nocScheduler depth n s
  | .inputQueued => nocIqScheduler depth n s

/-- What the transfer arbiter of the scheduler is asked for. -/
def transferRequests : NoCEgress → List Bool :=
  match n.timing.routerPipeline with
  | .singleStageElastic => arbiterRequests depth n s
  | .inputQueued => saRequests depth n s

theorem evaluate_moves : (evaluate depth n s).moves =
    moves (fun _ => depth) s.traffic.queues (candidates n (transferRequests depth n s)) := by
  unfold evaluate transferRequests
  cases n.timing.routerPipeline <;> rfl

end schedulers

end AgenticCircuit.Noc
