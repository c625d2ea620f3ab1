import UvrrCore.Replica.Reincarnation

/-!
# Planning and publishing

`plan` dispatches an input to its handler; `publish` judges the planned candidate by the
transition rules and installs it, or parks it until the host confirms its persistence.
`step` is one input planned and published.
-/

namespace UvrrCore

namespace Replica

variable {J : Type} [Journal J]

/-! ### Ticks -/

/-- A member of the fresh cluster still at its genesis state that the current ballot selects:
it promotes itself. -/
def promotable (r : Replica J) : Bool :=
  r.bootFenced && r.progress.current.view == View.initial &&
    r.progress.accepted == initSlot && r.progress.committed == initSlot &&
    (Journal.get r.journal voidSlot).isSome && (Journal.get r.journal initSlot).isSome &&
    r.primaryOf r.progress.current == some r.own

/-- A voter that has heard nothing of a primary for longer than the timeout. -/
def suspects (r : Replica J) (time : Nat) : Bool :=
  r.knobs.primaryTimeout != 0 && r.isVoter r.own &&
    (r.progress.status == .normal || r.progress.status == .restarting) &&
    decide (r.primaryActivity + r.knobs.primaryTimeout < u64Bound) &&
    decide (r.primaryActivity + r.knobs.primaryTimeout < time)

/-- The retained offer on a tick: judged again, as if delivered, once its suffix checks. -/
def redriveOffer (r : Replica J) (time : Nat) : Option Planned :=
  match r.stalled with
  | none => none
  | some offer =>
    let view := offer.message.header.view
    let current := r.progress.current
    match offer.message.body with
    | .startView suffix accepted committed proof =>
      if (current < view ∨
          (view = current ∧ (r.progress.status = .viewChange ∨ r.bootFenced = true))) ∧
          (r.checkSuffix suffix accepted committed Slot.none).installs = true then
        some (r.planStartView offer.sender offer.message suffix accepted committed proof time
          (.peerMessage .startView offer.message.header.slot))
      else none
    | _ => none

/-- The stalled win on a tick: continued once the selected history checks. -/
def redriveWin (r : Replica J) (time : Nat) : Option Planned :=
  match r.progress.status, r.viewChange with
  | .viewChange, some attempt =>
    match attempt.selected with
    | none => none
    | some (_, selected) =>
      let committed := r.attestedCommit attempt.evidence
      if committed ≤ selected.accepted ∧
          (r.checkSuffix selected.suffix selected.accepted committed
            r.progress.checkpoint).installs = true then
        some do
          let candidate ← r.identityCandidate
          r.continueViewChange candidate attempt [] time
            (.peerMessage .doViewChange selected.accepted)
      else none
  | _, _ => none

/-- The open fetch on a tick: asked again from its cursor. -/
def refetch (r : Replica J) : Option Planned :=
  match r.transfer with
  | none => none
  | some open_ =>
    let (ask, cursor) := fetch open_.view open_.recipient open_.next
    some do
      let plan ← r.emitPlan [ask] .tick
      return plan.withBookkeeping { transfer := .set cursor }

def planTick (r : Replica J) (time : Nat) : Planned :=
  if r.promotable then do
    let candidate ← asCandidate (r.progress.withStatus .normal)
    return (r.candidatePlan candidate .none (r.broadcastCommit r.progress.committed) .tick
      false).withActivity time
  else if r.suspects time then
    match r.viewChangeTarget with
    | none => .error (.progress .viewSuccessor)
    | some target => r.enterViewChange target OrdMap.empty time .tick
  else
    match r.redriveOffer time with
    | some plan => plan
    | none =>
      match r.redriveWin time with
      | some plan => plan
      | none =>
        match r.refetch with
        | some plan => plan
        | none =>
          match r.planForcedContinuation with
          | some plan => plan
          | none =>
            match r.planExecutionContinuation with
            | some plan => plan
            | none => r.emitPlan [] .tick

/-! ### Acknowledgements of the host -/

/-- The next committed client operation that is not applied yet. -/
def expectedApplied (r : Replica J) : Except PlanRefusal (Option Nat) := do
  let committed := r.progress.committed
  let walked ← r.appliedWalk [] r.progress.applied committed
  match Slot.next walked with
  | some next => return if next ≤ committed then some next else none
  | none => return none

/-- A replay is over once everything committed is applied. -/
def appliedStatus (r : Replica J) (applied : Nat) : Status :=
  if r.progress.status = .replaying ∧ applied = r.progress.committed then .normal
  else r.progress.status

def planApplied (r : Replica J) (slot : Nat) : Planned := do
  let committed := r.progress.committed
  let expected ← r.expectedApplied
  if expected ≠ some slot then .error (.unexpectedApplied expected slot)
  else
    let applied ← r.appliedWalk [] slot committed
    let candidate ←
      r.candidateWith (r.appliedStatus applied) r.progress.accepted committed applied
        r.progress.config none
    return (r.candidatePlan candidate .none [] .applied false).withBookkeeping
      { resolved := [slot] }

def planCheckpointed (r : Replica J) (through : Nat) : Planned :=
  let applied := r.progress.applied
  if applied < through then .error (.checkpointExceedsApplied applied through)
  else if through ≤ r.progress.checkpoint then r.emitPlan [] .checkpointed
  else do
    let candidate ← asCandidate (r.progress.withCheckpoint through)
    return r.candidatePlan candidate .none [] .checkpointed false

/-- The host's word on a parked transition: it takes effect, is dropped, or faults the node. -/
def planConfirmation (r : Replica J) (revision : Nat) (result : StabilityResult) : Planned :=
  match r.parked with
  | none => .error .noTransitionOutstanding
  | some parked =>
    if revision ≠ parked.base then .error (.confirmationMismatch parked.base revision)
    else
      match result with
      | .stable _ =>
        .ok (((r.candidatePlan parked.candidate parked.journal parked.effects parked.kind
          true).withBookkeeping parked.bookkeeping).withDiagnostic parked.diagnostic)
      | .failed _ => do
        let candidate ← r.identityCandidate
        return r.candidatePlan candidate .none [] .stabilityConfirmed true
      | .indeterminate _ => do
        let candidate ← asCandidate (r.progress.withFault .indeterminatePersistence)
        return r.candidatePlan candidate .none [] .stabilityConfirmed true

/-! ### Peer messages -/

/-- Planned evidence that this node solicited from its sender. -/
def plannedEvidenceSolicited (r : Replica J) (sender : Nat) (message : Message) : Bool :=
  match message.body, r.planned with
  | .doViewChange _ _ _ _ .planned _, some planned =>
    planned.solicited && message.header.view == planned.target &&
      planned.pivot.qI.contains sender
  | _, _ => false

/-- The sender of gossip is recorded as a witness unless it votes. -/
def withJoinGossipWitness (r : Replica J) (plan : PlannedTransition) (sender : Nat) :
    PlannedTransition :=
  if r.isVoter sender then plan else plan.withWitness sender

/-- The message shows that the current view is alive. -/
def primaryLife (r : Replica J) (sender : Nat) (message : Message) : Bool :=
  let view := message.header.view
  let current := r.progress.current
  match message.body with
  | .prepare .. | .commit .. | .fuse .. | .newState .. =>
    view == current && r.primaryOf view == some sender
  | .prepareOk =>
    view == current && r.isLeader && !r.stopTheWorldTransitionOutstanding
  | _ => false

/-- A message from outside the committed configuration, with no exception for it. -/
def foreignSender (r : Replica J) (sender : Nat) (message : Message) : Bool :=
  message.tag != .reincarnation && message.tag != .gossipRequest &&
    !r.plannedEvidenceSolicited sender message && (r.committedWeight sender).isNone

/-- The handler of each message. -/
def planBody (r : Replica J) (sender : Nat) (message : Message) (time : Nat)
    (kind : InputKind) : Planned :=
  match message.body with
  | .prepare entry committed => r.planPrepare sender message entry committed time kind
  | .prepareOk => r.planPrepareOk sender message kind
  | .commit committed => r.planCommit sender message committed time kind
  | .startViewChange => r.planStartViewChange sender message time kind
  | .doViewChange retained accepted committed suffix evidence proof =>
    r.planDoViewChange sender message
      { retained := retained, accepted := accepted, committed := committed, suffix := suffix }
      evidence proof time kind
  | .startView suffix accepted committed proof =>
    r.planStartView sender message suffix accepted committed proof time kind
  | .plannedViewChange => r.planPlannedViewChange sender message kind
  | .getState start => r.planGetState sender message start kind
  | .newState entries through committed more =>
    r.planNewState sender message entries through committed more kind
  | .reincarnation .. => do
    let plan ← r.planReincarnation sender message kind
    return r.withJoinGossipWitness plan sender
  | .gossipRequest .. => do
    let plan ← r.planGossipRequest sender message kind
    return r.withJoinGossipWitness plan sender
  | .fuse ops => r.planFuse sender message ops time kind
  | .fuseOk _ => r.planFuseOk sender message kind
  | .commitBatch _ => r.dropPlan .fuseRefusal kind

def planPeer (r : Replica J) (sender : Nat) (message : Message) (time : Nat)
    (kind : InputKind) : Planned :=
  if r.foreignSender sender message then r.dropPlan (.unknownSender sender) kind
  else do
    let plan ← r.planBody sender message time kind
    return if r.primaryLife sender message then plan.withActivity time else plan

/-! ### Planning -/

def refuseIfParked (r : Replica J) (planned : Planned) : Planned :=
  if r.parked.isSome then .error .transitionOutstanding else planned

/-- **The planner.** -/
def plan (r : Replica J) (input : TimedInput) : Planned :=
  match r.progress.fault with
  | some fault => .error (.faulted fault)
  | none =>
    let frontier := (Journal.accepted r.journal).getD Slot.none
    if frontier ≠ r.progress.accepted then
      .error (.journalViewDivergence r.progress.accepted frontier)
    else
      let kind := input.event.kind
      match input.event with
      | .stabilityConfirmation revision result => r.planConfirmation revision result
      | .tick => r.refuseIfParked (r.planTick input.time)
      | .propose operation => r.refuseIfParked (r.planPropose operation)
      | .peer sender message =>
        r.refuseIfParked (r.planPeer sender message input.time kind)
      | .applied slot => r.refuseIfParked (r.planApplied slot)
      | .adminForceView target => r.refuseIfParked (r.planAdminForceView target input.time)
      | .checkpointed through => r.refuseIfParked (r.planCheckpointed through)
      | .reconfigure op pivot => r.refuseIfParked (r.planReconfigure op pivot)
      | .reincarnate old => r.refuseIfParked (r.planReincarnate old kind)
      | .submitPlan plan => r.refuseIfParked (r.planSubmitPlan plan kind)

/-! ### Publishing -/

/-- The published record with a fault, if it takes one. -/
def faultNode (r : Replica J) (fault : Fault) : Replica J :=
  match r.progress.withFault fault with
  | .ok progress => { r with progress := progress }
  | .error _ => r

def mutateJournal (journal : J) : JournalMutation → Except JournalError J
  | .none => .ok journal
  | .accept entries => Journal.accept journal entries
  | .installSuffix start suffix => Journal.installSuffix journal start suffix

/-- The proposals after a transition. An install of a view clears the old view's first. -/
def nextProposals (old : OrdMap Nat Proposal) (bookkeeping : Bookkeeping) :
    OrdMap Nat Proposal :=
  let cleared :=
    match bookkeeping.viewChange with
    | .clear => OrdMap.empty
    | .unchanged | .set _ => old
  let added := bookkeeping.proposals.foldl (fun m p => m.insert p.1 p.2) cleared
  let acknowledged := bookkeeping.oks.foldl addOk added
  bookkeeping.resolved.foldl OrdMap.erase acknowledged
where
  addOk (m : OrdMap Nat Proposal) (ok : Nat × Nat) : OrdMap Nat Proposal :=
    m.modify ok.1 fun proposal =>
      if proposal.oks.contains ok.2 then proposal else { oks := proposal.oks ++ [ok.2] }

/-- The witnesses after a transition: the new one added, the voters of the new configuration
purged. -/
def nextWitnesses (old : List Nat) (config : Configuration) (witness : Option Nat) : List Nat :=
  let added :=
    match witness with
    | none => old
    | some node => if old.contains node then old else old ++ [node]
  added.filter fun node =>
    match config.weightOf node with
    | none => true
    | some weight => decide (weight < 1)

/-- Everything a transition changes, at once. -/
def installed (r : Replica J) (plan : PlannedTransition) (journal : J) : Replica J :=
  let bookkeeping := plan.bookkeeping
  { r with
    progress := plan.candidate
    journal := journal
    diagnostic := plan.diagnostic
    viewChange := bookkeeping.viewChange.applyTo r.viewChange
    transfer := bookkeeping.transfer.applyTo r.transfer
    stalled := bookkeeping.stalled.applyTo r.stalled
    planned := bookkeeping.planned.applyTo r.planned
    reincarnation := bookkeeping.reincarnation.applyTo r.reincarnation
    planExecution := bookkeeping.planExecution.applyTo r.planExecution
    witnesses :=
      nextWitnesses r.witnesses plan.candidate.config.current.config bookkeeping.witness
    proposals := nextProposals r.proposals bookkeeping
    primaryActivity := bookkeeping.activity.getD r.primaryActivity }

/-- The journal is changed first. A refused mutation faults the node: its two records
disagree. -/
def install (r : Replica J) (plan : PlannedTransition) :
    Replica J × Except PublishRefusal Unit :=
  match mutateJournal r.journal plan.journal with
  | .error error => (r.faultNode .progressJournalDivergence, .error (.journalRefused error))
  | .ok journal => (r.installed plan journal, .ok ())

/-- The transition kept for its confirmation. -/
def park (plan : PlannedTransition) : ParkedTransition where
  base := plan.base
  candidate := plan.candidate
  journal := plan.journal
  effects := plan.effects
  kind := plan.kind
  bookkeeping := plan.bookkeeping
  diagnostic := plan.diagnostic

/-- **The publication.** The replica after it, and what it released or why it refused. -/
def publish (r : Replica J) (plan : PlannedTransition) :
    Replica J × Except PublishRefusal PublishOutcome :=
  match r.progress.fault with
  | some fault => (r, .error (.faulted fault))
  | none =>
    if plan.base ≠ r.progress.revision then
      (r, .error (.revisionMismatch r.progress.revision plan.base))
    else
      match plan.fault with
      | some fault => (r.faultNode fault, .error (.illegalCandidate fault))
      | none =>
        match legal r.progress.toProgressData plan.candidate.toProgressData plan.kind with
        | some fault => (r.faultNode fault, .error (.illegalCandidate fault))
        | none =>
          if plan.completion ∨ r.stability = .volatile then
            match ({ r with parked := none } : Replica J).install plan with
            | (r', .error refusal) => (r', .error refusal)
            | (r', .ok ()) => (r', .ok (.published r'.progress.revision plan.effects))
          else if r.parked.isSome then (r, .error .transitionOutstanding)
          else
            ({ r with parked := some (park plan) },
              .ok (.parked plan.base [.persist plan.intent]))

/-! ### One input -/

/-- One input planned and published: the replica after it and the effects it released. A
refusal releases nothing. -/
def step (r : Replica J) (input : TimedInput) : Replica J × List Effect :=
  match r.plan input with
  | .error _ => (r, [])
  | .ok plan =>
    match r.publish plan with
    | (r', .error _) => (r', [])
    | (r', .ok (.published _ effects)) => (r', effects)
    | (r', .ok (.parked _ effects)) => (r', effects)

end Replica

end UvrrCore
