import UvrrCore.Cluster
import UvrrCore.Demo.Relay
import UvrrCore.Locks

/-!
# The loop of the demo

One node: the core, the lock table and the ledger, and the loop that feeds the core one input at a
time and routes what it releases. Every released datagram is recorded before it is sent, and every
inbound one is offered to the ledger before the core hears of it. The only boots are first lives and
crashed rebirths, so the lazy load of the lock table reads nothing.

`World` is the nodes with every datagram they ever sent. A datagram may be delivered any number of
times, in any order, late or never; a relay is one more delivery. A node that crashed, or whose boot
refused, is one that no later event names.
-/

namespace UvrrCore

namespace Demo

/-! ### Nodes -/

/-- A datagram on its way, with the era that authorised this copy. -/
structure Flight where
  sender : Nat
  recipient : Nat
  era : Nat
  message : Message
deriving DecidableEq, Repr

/-- A flight as the ledger records it. -/
def Flight.datagram (flight : Flight) : Datagram := Datagram.of flight.recipient flight.message

/-- An arriving flight retires an entry. -/
def Flight.answers (flight : Flight) (entry : Datagram) : Bool :=
  let header := flight.message.header
  Demo.answers entry flight.sender header.view.era header.view.view header.slot flight.message.tag

/-- Why a step refused. -/
inductive DemoRefusal where
  | plan (refusal : PlanRefusal)
  | publish (refusal : PublishRefusal)
  /-- A committed payload did not decode. -/
  | application
  | effect (text : String)
deriving DecidableEq, Repr

/-- An operation released and not yet applied. -/
structure PendingApply where
  slot : Nat
  operationId : OperationId
  payload : List UInt8
deriving DecidableEq, Repr

structure Applied where
  slot : Nat
  operationId : OperationId
  response : List UInt8
deriving DecidableEq, Repr

/-- A transition a node published: the replica it was planned on, the input and the plan. -/
structure Transition where
  before : Replica SegmentedLog
  input : TimedInput
  plan : PlannedTransition

/-- **A node.** It does not keep `released`, what it gave its ledger, nor `trail`, what it
published. -/
structure DemoNode where
  own : Nat
  replica : Replica SegmentedLog
  ledger : Ledger
  locks : Locks.Service
  tick : Nat
  applied : List Applied
  pending : List PendingApply
  released : List Datagram
  trail : List Transition

/-- The JSON library on the requests and the responses of the lock table. -/
structure RequestJson where
  fromSlice : List UInt8 → Option Locks.Request
  toVec : Locks.Response → List UInt8

inductive FenceWord where
  | stopping
  | stopped
  | flushed
deriving DecidableEq, Repr

/-- The durable record a crash leaves. -/
structure DemoDisk where
  journal : SegmentedLog
  persisted : ProgressData

/-- The default tail capacity of a log. -/
abbrev defaultTailCapacity : Nat := 64

/-- What a step of a node does: the node after it, what it sent, and its result. -/
abbrev Stepped (α : Type) : Type := DemoNode × List Flight × Except DemoRefusal α

namespace DemoNode

def assemble (replica : Replica SegmentedLog) : DemoNode where
  own := replica.own
  replica := replica
  ledger := Ledger.new
  locks := Locks.Service.empty
  tick := 0
  applied := []
  pending := []
  released := []
  trail := []

/-- **The first life.** -/
def first (own : Nat) (genesisOrder : List Nat) (knobs : ViewChangeKnobs) : Option DemoNode :=
  (Replica.provision own genesisOrder weightedMajority
    (SegmentedLog.withTailCapacity defaultTailCapacity) .volatile knobs).toOption.map assemble

/-! ### One step -/

/-- A datagram remembered, and sent. -/
def release (n : DemoNode) (recipient : Nat) (message : Message) : DemoNode :=
  { n with
    ledger := n.ledger.record (Datagram.of recipient message)
    released := n.released ++ [Datagram.of recipient message] }

/-- The released effects routed, in order. Applies are parked for the walk. -/
def route (n : DemoNode) : List Effect → Stepped Unit
  | [] => (n, [], .ok ())
  | .send recipient era message :: effects =>
    match (n.release recipient message).route effects with
    | (n', flights, result) => (n', ⟨n.own, recipient, era, message⟩ :: flights, result)
  | .apply slot operationId payload :: effects =>
    ({ n with pending := n.pending ++ [⟨slot, operationId, payload⟩] } : DemoNode).route effects
  | .persist _ :: _ =>
    (n, [], .error
      (.effect "a persistence intent released under the volatile demo's stability"))
  | .adminResponse _ :: _ =>
    (n, [], .error (.effect "an admin verdict released with no admin ingress"))

/-- The node behind a publication. An append is the moment to reclaim. -/
def published (n : DemoNode) (input : TimedInput) (plan : PlannedTransition)
    (replica : Replica SegmentedLog) : DemoNode :=
  { n with
    replica :=
      if n.replica.progress.accepted < replica.progress.accepted then replica.reclaimJournal
      else replica
    trail := n.trail ++ [⟨n.replica, input, plan⟩] }

/-- One pass of plan and publish, and the routing of what it released. -/
def drive (n : DemoNode) (input : Input) : Stepped Nat :=
  let timed : TimedInput := { time := n.tick, event := input }
  match n.replica.plan timed with
  | .error refusal => (n, [], .error (.plan refusal))
  | .ok planned =>
    match n.replica.publish planned with
    | (replica, .error refusal) => ({ n with replica := replica }, [], .error (.publish refusal))
    | (replica, .ok (.parked _ _)) =>
      ({ n with replica := replica }, [], .error
        (.effect "a transition parked under the volatile demo's stability"))
    | (replica, .ok (.published revision effects)) =>
      match (n.published timed planned replica).route effects with
      | (n', flights, .ok ()) => (n', flights, .ok revision)
      | (n', flights, .error refusal) => (n', flights, .error refusal)

/-- One apply: the lock table executes it at its slot, and its completion is fed back. -/
def walkApply (json : RequestJson) (n : DemoNode) (apply : PendingApply) : Stepped Nat :=
  match n.locks.execute json.fromSlice json.toVec apply.slot apply.payload with
  | (locks, none) => ({ n with locks := locks }, [], .error .application)
  | (locks, some response) =>
    ({ n with
        locks := locks
        applied := n.applied ++ [⟨apply.slot, apply.operationId, response⟩] } :
      DemoNode).drive (.applied apply.slot)

/-- The parked applies walked, one a round; the first refusal ends the walk. -/
def walk (json : RequestJson) : (rounds : Nat) → DemoNode → Stepped Unit
  | 0, n => (n, [], .ok ())
  | rounds + 1, n =>
    match n.pending with
    | [] => (n, [], .ok ())
    | apply :: pending =>
      match ({ n with pending := pending } : DemoNode).walkApply json apply with
      | (n', flights, .error refusal) => (n', flights, .error refusal)
      | (n', flights, .ok _) =>
        match walk json rounds n' with
        | (n'', more, result) => (n'', flights ++ more, result)

/-- **One step**: a pass, and the walk of the applies it parked. -/
def step (json : RequestJson) (n : DemoNode) (input : Input) : Stepped Nat :=
  match n.drive input with
  | (n', flights, .error refusal) => (n', flights, .error refusal)
  | (n', flights, .ok revision) =>
    match walk json n'.pending.length n' with
    | (n'', more, .error refusal) => (n'', flights ++ more, .error refusal)
    | (n'', more, .ok ()) => (n'', flights ++ more, .ok revision)

/-! ### What the driver and the transport do -/

/-- The driver's clock does not run back. -/
def onTick (json : RequestJson) (n : DemoNode) (time : Nat) : Stepped Nat :=
  ({ n with tick := max n.tick time } : DemoNode).step json .tick

def announce (json : RequestJson) (n : DemoNode) (old : Nat) : Stepped Nat :=
  n.step json (.reincarnate old)

/-- The join gossip, to every other member of the node's current configuration. -/
def gossip (n : DemoNode) : List Flight :=
  let progress := n.replica.progress
  let established := progress.config.current
  let message : Message :=
    { header := { view := progress.current, slot := Slot.none }
      body := .gossipRequest Slot.none Slot.none }
  ((established.config.order.map Member.node).filter fun member => member != n.own).map
    fun member => ⟨n.own, member, established.era, message⟩

/-- The ledger as an inbound datagram leaves it. -/
def hears (n : DemoNode) (sender : Nat) (message : Message) : Ledger :=
  n.ledger.answered sender message.header.view.era message.header.view.view message.header.slot
    message.tag

/-- One turn of the loop: the ledger is offered the datagram, and the core fed. -/
def receive (json : RequestJson) (n : DemoNode) (sender : Nat) (message : Message) :
    Stepped Nat :=
  ({ n with ledger := n.hears sender message } : DemoNode).step json (.peer sender message)

/-- **The reincarnation of a crashed life**, and its announcement. Only the clean word refuses
here. -/
def reincarnate (json : RequestJson) (old : Nat) (disk : DemoDisk) (word : Option FenceWord)
    (knobs : ViewChangeKnobs) : Option (Stepped Nat) :=
  if word = some .flushed then none
  else do
    let own ← NodeId.nextLife old
    let replica ←
      (Replica.reopenFenced own weightedMajority disk.journal disk.persisted .volatile
        knobs).toOption
    return (assemble replica).announce json old

end DemoNode

/-! ### The world -/

/-- What may happen next. -/
inductive Event where
  | first (own : Nat) (genesisOrder : List Nat) (knobs : ViewChangeKnobs)
  | reincarnate (old : Nat) (disk : DemoDisk) (word : Option FenceWord) (knobs : ViewChangeKnobs)
  /-- An input of the driver, which makes up no peer's message. -/
  | input (node : Nat) (event : Input)
  | tick (node time : Nat)
  | gossip (node : Nat)
  /-- The delivery of a datagram sent before, its relays among them. -/
  | deliver (index : Nat)

/-- **The nodes, and every datagram they ever sent.** -/
structure World where
  nodes : Nat → Option DemoNode
  sent : List Flight

namespace World

/-- No node is up yet. -/
def start : World where
  nodes := fun _ => none
  sent := []

def setNode (w : World) (node : DemoNode) (flights : List Flight) : World where
  nodes := fun other => if other = node.own then some node else w.nodes other
  sent := w.sent ++ flights

/-- A boot under an identity that was never up. -/
def boot (w : World) (node : DemoNode) (flights : List Flight) : World :=
  if (w.nodes node.own).isSome then w else w.setNode node flights

/-- What a node does at an event; its result goes back to the driver. -/
def acts (json : RequestJson) (w : World) (event : Event) : Option (DemoNode × List Flight) :=
  match event with
  | .first _ _ _ | .reincarnate _ _ _ _ => none
  | .input node event =>
    if event.isPeer then none
    else (w.nodes node).map fun n =>
      match n.step json event with
      | (n', flights, _) => (n', flights)
  | .tick node time =>
    (w.nodes node).map fun n =>
      match n.onTick json time with
      | (n', flights, _) => (n', flights)
  | .gossip node => (w.nodes node).map fun n => (n, n.gossip)
  | .deliver index => do
    let flight ← w.sent[index]?
    let n ← w.nodes flight.recipient
    match n.receive json flight.sender flight.message with
    | (n', flights, _) => return (n', flights)

/-- **One event.** -/
def step (json : RequestJson) (w : World) (event : Event) : World :=
  match event with
  | .first own genesisOrder knobs =>
    match DemoNode.first own genesisOrder knobs with
    | none => w
    | some n => w.boot n []
  | .reincarnate old disk word knobs =>
    match DemoNode.reincarnate json old disk word knobs with
    | none => w
    | some (n, flights, _) => w.boot n flights
  | event =>
    match w.acts json event with
    | none => w
    | some (n, flights) => w.setNode n flights

def run (json : RequestJson) (w : World) (events : List Event) : World :=
  events.foldl (step json) w

/-- A property of every step of a run: of the world before it and the event. -/
def Along (json : RequestJson) (P : World → Event → Prop) : World → List Event → Prop
  | _, [] => True
  | w, event :: events => P w event ∧ Along json P (w.step json event) events

/-- The datagram an event delivers. -/
def delivered (w : World) : Event → Option Flight
  | .deliver index => w.sent[index]?
  | _ => none

end World

end Demo

end UvrrCore
