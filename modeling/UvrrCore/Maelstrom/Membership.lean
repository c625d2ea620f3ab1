import UvrrCore.Cluster
import UvrrCore.Life
import UvrrCore.Maelstrom.Attribution
import UvrrCore.Pivots

/-!
# The membership verbs of the bench

A host of the bench drives one replica for its clients. A membership verb goes to the primary,
which proposes the operation of the verb and keeps the verb pending, with the slot its proposal
took and the era it would establish. The verb is answered once the record of that era names that
slot; where the record names another slot, the verb is dropped.

`Host` is one host from its init on, in the volatile mode, and `Bench` the hosts with every line
they ever sent. A line may be delivered any number of times, in any order, late or never. What
the key-value service answers is left out: the core is told only that an entry is applied.
-/

namespace UvrrCore

namespace Maelstrom

/-! ### Requests, waiters and replies -/

inductive Verb where
  | join
  | promote
  | demote
  | leave
deriving DecidableEq, Repr

def Verb.kind : Verb → String
  | .join => "join"
  | .promote => "promote"
  | .demote => "demote"
  | .leave => "leave"

/-- What a client asks for: a verb with the node it names, or an operation of the key-value
service, already encoded under the identity the core carries. -/
inductive Request where
  | membership (verb : Verb) (nodeId : Option String)
  | kv (operation : Operation)
deriving DecidableEq, Repr

/-- Where the answer to an operation has to go. -/
inductive Waiter where
  | client (node : String) (msgId : Nat)
  | forwarded (via client : String) (clientMsgId : Nat)
deriving DecidableEq, Repr

/-- A configuration as a host shows it: the members by their transport strings, with weights. -/
structure ConfigView where
  era : Nat
  viewEra : Nat
  view : Nat
  members : List (Option String × Nat)
deriving DecidableEq, Repr

/-- The text of an error. A refusal of the core is rendered by the host's language. -/
inductive ErrorText where
  | plain (text : String)
  | reconfigurationRefused (refusal : PlanRefusal)
deriving DecidableEq, Repr

/-- The body of an answer. -/
inductive Reply where
  | ok (kind : String) (config : ConfigView)
  | error (code : Nat) (text : ErrorText) (config : Option ConfigView)
deriving DecidableEq, Repr

abbrev temporarilyUnavailable : Nat := 11
abbrev malformedRequest : Nat := 12

/-- The body of a line, decoded. -/
inductive LineBody where
  | request (msgId : Nat) (request : Request)
  | vrr (message : Message)
  | proxy (client : String) (clientMsgId : Nat) (op : Request)
  | proxyReply (client : String) (clientMsgId : Nat) (body : Reply)
  | reply (inReplyTo : Nat) (body : Reply)
deriving DecidableEq, Repr

structure Line where
  src : String
  dest : String
  body : LineBody
deriving DecidableEq, Repr

/-! ### Hosts -/

/-- A membership verb proposed and not answered yet. -/
structure PendingMembership where
  /-- The era the proposal establishes once it commits. -/
  watchEra : Nat
  /-- The slot the proposal accepted. -/
  slot : Nat
  waiter : Waiter
  replyKind : String
deriving DecidableEq, Repr

/-- A pending verb and, beside what the host keeps of it, the operation it proposed. -/
structure Proposed extends PendingMembership where
  operation : SystemOperation
deriving DecidableEq, Repr

/-- **A host**. It does not keep the operations of its verbs, the verbs it answered, nor
`committed`, the entries each publication newly committed as its journal held them then. -/
structure Host where
  id : String
  identity : Identity
  replica : Replica SegmentedLog
  tick : Nat
  pending : List Proposed
  answered : List Proposed
  committed : List LogEntry

namespace Host

/-- The knobs of the bench. -/
def knobs : ViewChangeKnobs where
  primaryTimeout := 25
  viewChangeBudget := u64Bound - 1

/-- A host at its init: a fresh identity at the host's position in the roster. -/
def init (roster : Roster) (id : String) : Option Host := do
  let index ← roster.members.findIdx? fun member => member == id
  let genesisOrder := (List.range roster.members.length).map Identity.genesis
  let replica ←
    (Replica.provision (Identity.genesis index) genesisOrder weightedMajority
      (SegmentedLog.withTailCapacity 64) .volatile knobs).toOption
  return { id := id, identity := Identity.start roster, replica := replica, tick := 0,
           pending := [], answered := [], committed := [] }

/-! ### Driving the core -/

/-- The next input of the host's clock. -/
def timed (h : Host) (input : Input) : TimedInput where
  time := h.tick + 1
  event := input

/-- The host behind a publication. -/
def published (h : Host) (replica : Replica SegmentedLog) : Host :=
  { h with
    replica := replica
    tick := h.tick + 1
    committed := h.committed ++
      committedIn replica.journal h.replica.progress.committed replica.progress.committed }

/-- One input planned and published: the refusal of the plan, or the effects released. A
publication that is refused or parked releases none. -/
def step (h : Host) (input : Input) : Host × Except PlanRefusal (List Effect) :=
  match h.replica.plan (h.timed input) with
  | .error refusal => ({ h with tick := h.tick + 1 }, .error refusal)
  | .ok plan =>
    match h.replica.publish plan with
    | (replica, .ok (.published _ effects)) => (h.published replica, .ok effects)
    | (replica, .ok (.parked _ _)) => (h.published replica, .ok [])
    | (replica, .error _) => (h.published replica, .ok [])

def line (h : Host) (dest : String) (body : LineBody) : Line where
  src := h.id
  dest := dest
  body := body

/-- The effects executed, one after the other; what an acknowledgement of an apply releases goes
first. Each round executes one effect. -/
def route : (rounds : Nat) → Host → List Effect → Host × List Line
  | 0, h, _ => (h, [])
  | _ + 1, h, [] => (h, [])
  | rounds + 1, h, .send recipient _ message :: effects =>
    match h.identity.stringOf recipient with
    | some peer =>
      match route rounds h effects with
      | (h', lines) => (h', h.line peer (.vrr message) :: lines)
    | none => route rounds h effects
  | rounds + 1, h, .apply slot _ _ :: effects =>
    match h.step (.applied slot) with
    | (h', .ok more) => route rounds h' (more ++ effects)
    | (h', .error _) => route rounds h' effects
  | rounds + 1, h, .persist _ :: effects => route rounds h effects
  | rounds + 1, h, .adminResponse _ :: effects => route rounds h effects

/-- An input driven into the core; a refusal is dropped. -/
def drive (h : Host) (input : Input) : Host × List Line :=
  match h.step input with
  | (h', .ok effects) => route effects.length h' effects
  | (h', .error _) => (h', [])

/-- The primary of the current view, when the host's own table can name one. -/
def primary (h : Host) : Option Nat := h.replica.primaryOf h.replica.progress.current

def leads (h : Host) : Bool :=
  h.replica.progress.status == .normal && h.primary == some h.replica.own

/-! ### Answers -/

/-- An answer on its way back to the client: by the peer that forwarded the operation, if one
did. -/
def answer (h : Host) (waiter : Waiter) (body : Reply) : Line :=
  match waiter with
  | .client node msgId => h.line node (.reply msgId body)
  | .forwarded via client clientMsgId => h.line via (.proxyReply client clientMsgId body)

/-- The configuration on the host's newest record. -/
def configView (h : Host) : ConfigView :=
  let progress := h.replica.progress
  let established := progress.config.current
  { era := established.era
    viewEra := progress.current.era
    view := progress.current.view
    members := established.config.order.map fun member =>
      (h.identity.stringOf member.node, member.weight) }

def refuse (h : Host) (waiter : Waiter) (text : String) : Line :=
  h.answer waiter (.error temporarilyUnavailable (.plain text) none)

def membershipError (h : Host) (waiter : Waiter) (code : Nat) (text : ErrorText) : Line :=
  h.answer waiter (.error code text (some h.configView))

/-- An operation at a host that does not lead. It is forwarded once: a host that received it from
a peer refuses it. -/
def forward (h : Host) (waiter : Waiter) (op : Request) : Line :=
  match waiter, h.primary.bind h.identity.stringOf with
  | .client node msgId, some primary =>
    if primary ≠ h.id then h.line primary (.proxy node msgId op)
    else h.refuse waiter "not the primary"
  | _, _ => h.refuse waiter "not the primary"

/-! ### The verbs -/

/-- The pivot for this leader under the fold of an operation, when there is one. -/
def pivotFor (h : Host) (operation : SystemOperation) : Option Pivot := do
  let progress := h.replica.progress
  let slot ← Slot.next progress.accepted
  let next ← (progress.config.extend operation slot).toOption
  constructPivot weightedMajority progress.config.current.config next.current.config h.replica.own

/-- The operation of a verb. A joining node goes to the end of the order. -/
def operationOf (h : Host) (verb : Verb) (node : Nat) : SystemOperation :=
  match verb with
  | .join => .join node h.replica.progress.config.current.config.order.length
  | .promote => .increment node
  | .demote => .decrement node
  | .leave => .leave node

/-- The pivot a proposal is tried with: none but for a promotion. -/
def proposalPivot (h : Host) (operation : SystemOperation) : Option Pivot :=
  match operation with
  | .increment _ => h.pivotFor operation
  | _ => none

/-- The proposal stepped, and once more without its pivot where the pivot's view cannot be
named. -/
def propose (h : Host) (operation : SystemOperation) :
    Host × Except PlanRefusal (List Effect) :=
  let pivot := h.proposalPivot operation
  match pivot, h.step (.reconfigure operation pivot) with
  | some _, (h', .error (.reconfigureViewExhausted _)) => h'.step (.reconfigure operation none)
  | _, stepped => stepped

/-- **A membership verb**, from a client or forwarded. An accepted proposal is kept pending under
the frontier it left; the era it watches always exists. -/
def submitMembership (h : Host) (verb : Verb) (nodeId : Option String) (waiter : Waiter) :
    Host × List Line :=
  match nodeId with
  | none =>
    (h, [h.membershipError waiter malformedRequest
      (.plain "membership verb without a node_id")])
  | some target =>
    match h.identity.attributed target with
    | none =>
      (h, [h.membershipError waiter malformedRequest
        (.plain s!"membership verb names {target}, which is not a bench node")])
    | some node =>
      if h.leads then
        let operation := h.operationOf verb node
        match h.propose operation with
        | (h', .ok effects) =>
          match route effects.length h' effects with
          | (routed, lines) =>
            match Era.next routed.replica.progress.current.era with
            | none => (routed, lines)
            | some watchEra =>
              ({ routed with
                pending := routed.pending ++
                  [{ watchEra := watchEra, slot := routed.replica.progress.accepted,
                     waiter := waiter, replyKind := verb.kind ++ "_ok",
                     operation := operation }] },
                lines)
        | (h', .error refusal) =>
          (h', [h'.membershipError waiter temporarilyUnavailable (.reconfigurationRefused refusal)])
      else (h, [h.forward waiter (.membership verb nodeId)])

/-- One operation of a client: the primary proposes it, a backup forwards it. -/
def submit (h : Host) (request : Request) (waiter : Waiter) : Host × List Line :=
  match request with
  | .membership verb nodeId => h.submitMembership verb nodeId waiter
  | .kv operation =>
    if h.leads then
      match h.step (.propose operation) with
      | (h', .ok effects) => route effects.length h' effects
      | (h', .error _) => (h', [h'.refuse waiter "request refused by primary"])
    else (h, [h.forward waiter request])

/-- What the host's table says of a pending verb: its slot established the era it watches, another
slot did, or none yet. -/
def verdict (h : Host) (verb : Proposed) : Option Bool :=
  (h.replica.progress.config.record verb.watchEra).map fun record =>
    record.establishedBy == verb.slot

/-- **The pending verbs settled**: answered, or dropped where another slot established the era. -/
def flushMembership (h : Host) : Host × List Line :=
  let answered := h.pending.filter fun verb => h.verdict verb == some true
  ({ h with
      pending := h.pending.filter fun verb => (h.verdict verb).isNone
      answered := h.answered ++ answered },
    answered.map fun verb => h.answer verb.waiter (.ok verb.replyKind h.configView))

/-! ### Events of a host -/

def onPeer (h : Host) (src : String) (message : Message) : Host × List Line :=
  match h.identity.onPeer { src := src, decoded := some message } with
  | (identity, none) => ({ h with identity := identity }, [])
  | (identity, some (sender, fed)) => { h with identity := identity }.drive (.peer sender fed)

/-- What one line makes a host do, before the pending verbs are settled. -/
def receive (h : Host) (line : Line) : Host × List Line :=
  match line.body with
  | .request msgId request => h.submit request (.client line.src msgId)
  | .vrr message => h.onPeer line.src message
  | .proxy client clientMsgId op => h.submit op (.forwarded line.src client clientMsgId)
  | .proxyReply client clientMsgId body => (h, [h.line client (.reply clientMsgId body)])
  | .reply _ _ => (h, [])

/-- **One line.** -/
def onMessage (h : Host) (line : Line) : Host × List Line :=
  match h.receive line with
  | (received, lines) =>
    match received.flushMembership with
    | (flushed, answers) => (flushed, lines ++ answers)

/-- **One tick.** It settles no verb. -/
def onTick (h : Host) : Host × List Line := h.drive .tick

end Host

/-! ### The bench -/

/-- What may happen next. -/
inductive Event where
  | init (node : String)
  /-- A client's request. -/
  | client (src dest : String) (msgId : Nat) (request : Request)
  /-- The delivery of a line sent before. -/
  | deliver (index : Nat)
  | tick (node : String)
deriving DecidableEq, Repr

/-- **The hosts of a roster, and every line they ever sent.** -/
structure Bench where
  roster : Roster
  hosts : String → Option Host
  sent : List Line

namespace Bench

/-- No host is up yet. -/
def start (roster : Roster) : Bench where
  roster := roster
  hosts := fun _ => none
  sent := []

def setHost (b : Bench) (node : String) (host : Host) (lines : List Line) : Bench :=
  { b with
    hosts := fun other => if other = node then some host else b.hosts other
    sent := b.sent ++ lines }

/-- The line an event hands to a host. -/
def lineOf (b : Bench) : Event → Option Line
  | .client src dest msgId request => some { src, dest, body := .request msgId request }
  | .deliver index => b.sent[index]?
  | .init _ | .tick _ => none

/-- A line taken by the host it is for; a line for no host is a client's. -/
def receive (b : Bench) (line : Line) : Bench :=
  match b.hosts line.dest with
  | none => b
  | some host =>
    match host.onMessage line with
    | (host', lines) => b.setHost line.dest host' lines

def step (b : Bench) (event : Event) : Bench :=
  match event with
  | .init node =>
    match b.hosts node, Host.init b.roster node with
    | none, some host => b.setHost node host []
    | _, _ => b
  | .tick node =>
    match b.hosts node with
    | none => b
    | some host =>
      match host.onTick with
      | (host', lines) => b.setHost node host' lines
  | event =>
    match b.lineOf event with
    | none => b
    | some line => b.receive line

def run (b : Bench) (events : List Event) : Bench := events.foldl step b

end Bench

end Maelstrom

end UvrrCore
