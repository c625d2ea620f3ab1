import UvrrCore.OrdMap
import UvrrCore.Quorum
import UvrrCore.Effects

/-!
# The state of a replica and what a planned transition carries

A replica plans and publishes in two steps. Planning reads the published state and answers a
`PlannedTransition`: a candidate record, a journal mutation, the effects to release and the
volatile `Bookkeeping`; or a `PlanRefusal`. Publishing judges the candidate by the transition
rules and installs all of it at once.

The volatile records are the source's: the primary's proposals, the open view change, the open
fetch, the retained `StartView` offer, the planned overlap, the forced and the planned
reconfiguration sequences.
-/

namespace UvrrCore

/-! ### Inputs -/

inductive Input where
  | peer (sender : Nat) (message : Message)
  | propose (operation : Operation)
  | tick
  | stabilityConfirmation (revision : Nat) (result : StabilityResult)
  | applied (slot : Nat)
  | checkpointed (through : Nat)
  | reconfigure (op : SystemOperation) (pivot : Option Pivot)
  | adminForceView (target : Ballot)
  | reincarnate (old : Nat)
  | submitPlan (plan : Plan)
deriving DecidableEq, Repr

/-- An input with the host's clock. -/
structure TimedInput where
  time : Nat
  event : Input
deriving DecidableEq, Repr

def Input.isPeer : Input → Bool
  | .peer _ _ => true
  | _ => false

def Input.kind : Input → InputKind
  | .peer _ message => .peerMessage message.tag message.header.slot
  | .propose _ => .clientRequest
  | .tick => .tick
  | .stabilityConfirmation _ _ => .stabilityConfirmed
  | .applied _ => .applied
  | .checkpointed _ => .checkpointed
  | .reconfigure _ _ => .reconfiguration
  | .adminForceView _ | .reincarnate _ | .submitPlan _ => .admin

/-! ### Refusals -/

/-- Why an input is not planned. The published state stays. -/
inductive PlanRefusal where
  | faulted (fault : Fault)
  | transitionOutstanding
  | noTransitionOutstanding
  | confirmationMismatch (expected got : Nat)
  | journalViewDivergence (progress journal : Nat)
  | progress (error : ProgressError)
  | notPrimary (view : Ballot) (primary : Option Nat)
  | unexpectedApplied (expected : Option Nat) (got : Nat)
  | checkpointExceedsApplied (applied through : Nat)
  | journalEntryUnavailable (slot : Nat)
  | slotSpaceExhausted
  | reconfigure (error : ConfigError)
  | reconfigureQuorum (error : QuorumError)
  | reconfigurePivot (error : PivotError)
  | eraTransitionOutstanding (view established : Nat)
  | reconfigureOutstanding (slot : Nat)
  | adminTargetNotAhead (current target : Ballot)
  | adminEraNotCurrent (current got : Nat)
  | adminViewExhausted (target : Ballot)
  | reconfigureViewExhausted (current : Ballot)
  /-- No refusal: the handler panics and returns nothing. -/
  | panicked
deriving DecidableEq, Repr

/-- Why a planned transition is not published. An illegal candidate and a refused journal
mutation also fault the node. -/
inductive PublishRefusal where
  | faulted (fault : Fault)
  | revisionMismatch (expected got : Nat)
  | illegalCandidate (fault : Fault)
  | transitionOutstanding
  | journalRefused (error : JournalError)
deriving DecidableEq, Repr

inductive PublishOutcome where
  | published (revision : Nat) (effects : List Effect)
  | parked (revision : Nat) (effects : List Effect)
deriving DecidableEq, Repr

inductive LifecycleRefusal where
  | notAMember (node : Nat)
  | configuration (error : ConfigError)
  | quorum (error : QuorumError)
  | progress (error : ProgressError)
  | journal (error : JournalError)
  | journalNotEmpty
  | notAFreshJoiner
  | progressJournalDivergence (progress journal : Nat)
deriving DecidableEq, Repr

/-! ### Volatile records -/

/-- The tuning values. The host may set them as it likes. -/
structure ViewChangeKnobs where
  /-- Ticks of silence before a voter suspects the primary; 0 never suspects. -/
  primaryTimeout : Nat
  /-- The packed bytes a suffix or a chunk may carry. -/
  viewChangeBudget : Nat
deriving DecidableEq, Repr

/-- An outstanding proposal: who acknowledged it, the primary apart. -/
structure Proposal where
  oks : List Nat
deriving DecidableEq, Repr

/-- What a node reported for a view change. -/
structure Evidence where
  retained : Ballot
  accepted : Nat
  committed : Nat
  suffix : List LogEntry
deriving DecidableEq, Repr

/-- An open view change: who fenced, who reported, and the history selected once a quorum
reported. -/
structure ViewChangeVolatile where
  target : Ballot
  fences : OrdMap Nat Unit
  evidence : OrdMap Nat Evidence
  selected : Option (Nat × Evidence)
deriving DecidableEq

/-- An open fetch: the view it asks under, whom it asks, and the next slot it wants. -/
structure TransferVolatile where
  view : Ballot
  recipient : Nat
  next : Nat
deriving DecidableEq, Repr

/-- A `StartView` whose suffix could not be checked yet. -/
structure StalledStartView where
  sender : Nat
  message : Message
deriving DecidableEq, Repr

/-- The overlap of a planned era switch. -/
structure PlannedOverlap where
  establishing : Nat
  pivot : Pivot
  target : Ballot
  solicited : Bool
  evidence : OrdMap Nat Evidence
deriving DecidableEq

/-- The replacement of `old` by `new` that a leader is driving. -/
structure ForcedSequence where
  old : Nat
  new : Nat
deriving DecidableEq, Repr

/-- The accepted plan a leader is driving, and its next step. -/
structure PlannedSequence where
  steps : List (List SystemOperation)
  next : Nat
deriving DecidableEq, Repr

/-- A change to one optional record. -/
inductive Update (α : Type) where
  | unchanged
  | set (value : α)
  | clear
deriving DecidableEq, Repr

instance {α : Type} : Inhabited (Update α) := ⟨.unchanged⟩

def Update.applyTo {α : Type} (update : Update α) (old : Option α) : Option α :=
  match update with
  | .unchanged => old
  | .set value => some value
  | .clear => none

/-- The volatile side of a transition. -/
structure Bookkeeping where
  proposals : List (Nat × Proposal) := []
  oks : List (Nat × Nat) := []
  resolved : List Nat := []
  viewChange : Update ViewChangeVolatile := .unchanged
  transfer : Update TransferVolatile := .unchanged
  stalled : Update StalledStartView := .unchanged
  planned : Update PlannedOverlap := .unchanged
  reincarnation : Update ForcedSequence := .unchanged
  planExecution : Update PlannedSequence := .unchanged
  witness : Option Nat := none
  activity : Option Nat := none
deriving DecidableEq

/-! ### Planned transitions -/

inductive JournalMutation where
  | none
  | accept (entries : List LogEntry)
  | installSuffix (start : Nat) (suffix : List LogEntry)
deriving DecidableEq, Repr

def JournalMutation.intent : JournalMutation → JournalIntent
  | .none => .unchanged
  | .accept entries =>
    match entries.head?, entries.getLast? with
    | some first, some last => .accept first.slot last.slot
    | _, _ => .unchanged
  | .installSuffix start suffix =>
    match suffix.getLast? with
    | some last => .installSuffix start last.slot
    | .none => .installSuffix start start

structure PlannedTransition where
  base : Nat
  candidate : Progress
  journal : JournalMutation
  intent : PersistenceIntent
  effects : List Effect
  kind : InputKind
  completion : Bool
  bookkeeping : Bookkeeping
  diagnostic : Diagnostic
  fault : Option Fault

namespace PlannedTransition

def withBookkeeping (plan : PlannedTransition) (bookkeeping : Bookkeeping) : PlannedTransition :=
  { plan with bookkeeping := bookkeeping }

def withDiagnostic (plan : PlannedTransition) (diagnostic : Diagnostic) : PlannedTransition :=
  { plan with diagnostic := diagnostic }

def withFaultDeclared (plan : PlannedTransition) (fault : Fault) : PlannedTransition :=
  { plan with fault := some fault }

def withActivity (plan : PlannedTransition) (tick : Nat) : PlannedTransition :=
  { plan with bookkeeping := { plan.bookkeeping with activity := some tick } }

def withFetch (plan : PlannedTransition) (fetch : Effect × TransferVolatile) :
    PlannedTransition :=
  { plan with
    effects := plan.effects ++ [fetch.1]
    bookkeeping := { plan.bookkeeping with transfer := .set fetch.2 } }

def withReincarnation (plan : PlannedTransition) (update : Update ForcedSequence) :
    PlannedTransition :=
  { plan with bookkeeping := { plan.bookkeeping with reincarnation := update } }

def withPlanExecution (plan : PlannedTransition) (update : Update PlannedSequence) :
    PlannedTransition :=
  { plan with bookkeeping := { plan.bookkeeping with planExecution := update } }

def withWitness (plan : PlannedTransition) (node : Nat) : PlannedTransition :=
  { plan with bookkeeping := { plan.bookkeeping with witness := some node } }

def withEffect (plan : PlannedTransition) (effect : Effect) : PlannedTransition :=
  { plan with effects := plan.effects ++ [effect] }

def withStalledOffer (plan : PlannedTransition) (sender : Nat) (message : Message) :
    PlannedTransition :=
  { plan with
    bookkeeping :=
      { plan.bookkeeping with stalled := .set { sender := sender, message := message } } }

end PlannedTransition

/-- A transition released for persistence and waiting for its confirmation. -/
structure ParkedTransition where
  base : Nat
  candidate : Progress
  journal : JournalMutation
  effects : List Effect
  kind : InputKind
  bookkeeping : Bookkeeping
  diagnostic : Diagnostic

/-! ### The replica -/

structure Replica (J : Type) where
  own : Nat
  progress : Progress
  journal : J
  strategy : QuorumStrategy
  stability : Stability
  /-- The diagnostic of the last published transition, as observers read it. -/
  diagnostic : Diagnostic
  proposals : OrdMap Nat Proposal
  parked : Option ParkedTransition
  knobs : ViewChangeKnobs
  primaryActivity : Nat
  viewChange : Option ViewChangeVolatile
  transfer : Option TransferVolatile
  stalled : Option StalledStartView
  planned : Option PlannedOverlap
  reincarnation : Option ForcedSequence
  planExecution : Option PlannedSequence
  witnesses : List Nat

/-- A plan, or the refusal of the input. -/
abbrev Planned := Except PlanRefusal PlannedTransition

namespace Replica

variable {J : Type} [Journal J]

/-- A fresh replica around its durable record: every volatile record starts empty. -/
def assemble (own : Nat) (strategy : QuorumStrategy) (journal : J) (stability : Stability)
    (knobs : ViewChangeKnobs) (progress : Progress) : Replica J where
  own := own
  progress := progress
  journal := journal
  strategy := strategy
  stability := stability
  diagnostic := .none
  proposals := OrdMap.empty
  parked := none
  knobs := knobs
  primaryActivity := 0
  viewChange := none
  transfer := none
  stalled := none
  planned := none
  reincarnation := none
  planExecution := none
  witnesses := []

/-- The table after the two genesis operations. -/
def genesisTable (genesisOrder : List Nat) : Except ConfigError EraTable := do
  let table ← EraTable.genesis.extend .void voidSlot
  table.extend (.init genesisOrder) initSlot

/-- The two genesis entries. -/
def genesisEntries (genesisOrder : List Nat) (era : Nat) : List LogEntry :=
  [{ slot := voidSlot, era := Era.initial, payload := .system .void },
   { slot := initSlot, era := era, payload := .system (.init genesisOrder) }]

/-- **A node of a fresh cluster.** It holds the genesis history, committed and applied by
construction, and waits as `joining`. -/
def provision (own : Nat) (genesisOrder : List Nat) (strategy : QuorumStrategy) (journal : J)
    (stability : Stability) (knobs : ViewChangeKnobs) :
    Except LifecycleRefusal (Replica J) :=
  if (Journal.accepted journal).isSome then .error .journalNotEmpty
  else
    match genesisTable genesisOrder with
    | .error error => .error (.configuration error)
    | .ok table =>
      if !genesisOrder.contains own then .error (.notAMember own)
      else
        match validateEra strategy table.current.config with
        | .error error => .error (.quorum error)
        | .ok () =>
          let era := table.current.era
          match Journal.installSuffix journal voidSlot (genesisEntries genesisOrder era) with
          | .error error => .error (.journal error)
          | .ok journal =>
            let view : Ballot := { era := era, view := View.initial }
            match Progress.reconstitute
                { current := view, retained := view, status := .joining, accepted := initSlot,
                  committed := initSlot, applied := initSlot, checkpoint := Slot.none,
                  revision := 0, config := table, fault := none } with
            | .error error => .error (.progress error)
            | .ok progress => .ok (assemble own strategy journal stability knobs progress)

/-- **A replica reopened on the durable record of an earlier life**, as every later boot opens
it: it waits as `restarting`, with every volatile record lost. -/
def reopenFenced (own : Nat) (strategy : QuorumStrategy) (journal : J)
    (persisted : ProgressData) (stability : Stability) (knobs : ViewChangeKnobs) :
    Except LifecycleRefusal (Replica J) :=
  match validateEra strategy persisted.config.current.config with
  | .error error => .error (.quorum error)
  | .ok () =>
    let frontier := (Journal.accepted journal).getD Slot.none
    if frontier ≠ persisted.accepted then
      .error (.progressJournalDivergence persisted.accepted frontier)
    else
      match Progress.reconstitute { persisted with status := .restarting } with
      | .error error => .error (.progress error)
      | .ok progress => .ok (assemble own strategy journal stability knobs progress)

omit [Journal J] in
/-- The witnesses registered at startup, without duplicates and without the node itself. -/
def withWitnesses (r : Replica J) (witnesses : List Nat) : Replica J :=
  { r with witnesses := witnesses.foldl register r.witnesses }
where
  register (listed : List Nat) (witness : Nat) : List Nat :=
    if witness ≠ r.own ∧ listed.contains witness = false then listed ++ [witness] else listed

/-! ### Reading the state -/

def current (r : Replica J) : Ballot := r.progress.current

/-- The primary a ballot selects, when its era is still on record. -/
def primaryOf (r : Replica J) (view : Ballot) : Option Nat :=
  match r.progress.config.record view.era with
  | none => none
  | some record => record.config.primary view.view

def currentRecord (r : Replica J) : Option EraRecord :=
  r.progress.config.record r.progress.current.era

/-- The serving primary of the current ballot. -/
def isLeader (r : Replica J) : Bool :=
  r.progress.status == .normal && r.primaryOf r.progress.current == some r.own

/-- Still where the process booted: no view adopted since. -/
def bootFenced (r : Replica J) : Bool :=
  r.progress.status.isBoot && r.progress.current == r.progress.retained

/-- The other members of the current configuration, in order. -/
def backups (r : Replica J) : List Nat :=
  match r.currentRecord with
  | none => []
  | some record => (record.config.order.map Member.node).filter fun node => node != r.own

/-- The weight of a node in the newest committed configuration. -/
def committedWeight (r : Replica J) (node : Nat) : Option Nat :=
  r.progress.config.current.config.weightOf node

/-- A member with a vote in the newest committed configuration. -/
def isVoter (r : Replica J) (node : Nat) : Bool :=
  match r.committedWeight node with
  | none => false
  | some weight => decide (1 ≤ weight)

/-- An era is established and not entered, and no planned overlap is open for it. -/
def stopTheWorldTransitionOutstanding (r : Replica J) : Bool :=
  r.progress.config.current.era != r.progress.current.era && r.planned.isNone

/-- The ballot a suspicion aims at: the next view, of the established era when that is one
past the current. -/
def viewChangeTarget (r : Replica J) : Option Ballot :=
  if Era.next r.progress.current.era = some r.progress.config.current.era then
    r.progress.current.nextInNextEra
  else r.progress.current.nextInEra

end Replica

end UvrrCore
