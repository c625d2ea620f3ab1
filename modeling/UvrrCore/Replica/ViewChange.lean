import UvrrCore.Replica.Base

/-!
# View changes

A node that leaves its view fences into a target ballot and announces it. Once a fence quorum
is heard it records its own evidence and reports it to the primary of the target. That primary
selects a history from a quorum of evidence, installs it and announces it as `StartView`; the
others install what the announcement offers.

A history that cannot be checked against the local journal is never guessed: the node keeps the
attempt (or the offer) and fetches what is missing.
-/

namespace UvrrCore

/-- The establishing operation names the node: it joins it, promotes it, or carries either. -/
def establishingOpNames : SystemOperation → Nat → Bool
  | .join joined _, node => joined == node
  | .increment named, node => named == node
  | .batch ops, node => anyNames ops node
  | _, _ => false
where
  anyNames : List SystemOperation → Nat → Bool
    | [], _ => false
    | op :: ops, node => establishingOpNames op node || anyNames ops node

/-- What the attempt to win a view came to. -/
inductive WinOutcome where
  | installed (plan : PlannedTransition)
  | insufficient (expected got : Nat) (effects : List Effect)

namespace Replica

variable {J : Type} [Journal J]

/-! ### Evidence -/

def ownEvidence (r : Replica J) : Evidence where
  retained := r.progress.retained
  accepted := r.progress.accepted
  committed := r.progress.committed
  suffix := r.boundedSuffix r.progress.accepted []

/-- The report of a node's own evidence to the primary of the target. -/
def doViewChangeEffect (r : Replica J) (own : Evidence) (target : Ballot) :
    Except PlanRefusal Effect :=
  match r.primaryOf target with
  | none => .error (.progress .eraSlotDiscipline)
  | some recipient => do
    let proof ← r.eraProof target.era
    return .send recipient target.era
      { header := { view := target, slot := own.accepted }
        body := .doViewChange own.retained own.accepted own.committed own.suffix .ordinary proof }

/-! ### Winning -/

/-- The committed frontier the evidence attests. -/
def attestedCommit (r : Replica J) (evidence : OrdMap Nat Evidence) : Nat :=
  (evidence.values.map Evidence.committed).foldl max r.progress.committed

/-- The new primary's broadcast of the history it installed. -/
def startViewEffects (r : Replica J) (target : Ballot) (selected : Evidence) (committed : Nat) :
    Except PlanRefusal (List Effect) := do
  let suffix := r.boundedSuffix selected.accepted selected.suffix
  let proof ← r.eraProof target.era
  return sendAll r.backups target.era
    { header := { view := target, slot := selected.accepted }
      body := .startView suffix selected.accepted committed proof }

/-- **The win.** The selected history is checked against the journal, its committed part is
folded, and the node serves the target with it. -/
def planWinView (r : Replica J) (target : Ballot) (selected : Evidence)
    (evidence : OrdMap Nat Evidence) (effects : List Effect) (time : Nat) (kind : InputKind) :
    Except PlanRefusal WinOutcome :=
  let committed := r.attestedCommit evidence
  if selected.accepted < committed then
    .ok (.insufficient ((Slot.next selected.accepted).getD selected.accepted) committed effects)
  else
    match r.checkSuffix selected.suffix selected.accepted committed r.progress.checkpoint with
    | .gap expected got => .ok (.insufficient expected got effects)
    | .conflict => do return .installed (← r.breachPlan kind)
    | .install mutation => do
      let applied ← r.appliedWalk selected.suffix r.progress.applied committed
      match r.foldCommitted selected.suffix r.progress.committed committed false with
      | .error (.unavailable slot) => .error (.journalEntryUnavailable slot)
      | .error .splitBatch => return .installed (← r.dropPlan .fuseRefusal kind)
      | .error (.breach _ _) => return .installed (← r.breachPlan kind)
      | .ok folded =>
        let candidate ←
          r.installCandidate target selected.accepted committed applied folded.config
        let applies ← r.applyEffectsMerged selected.suffix r.progress.committed committed
        let announcements ← r.startViewEffects target selected committed
        return .installed
          ((r.candidatePlan candidate mutation (effects ++ applies ++ announcements) kind
            false).withBookkeeping
              { proposals := r.installedProposals selected.suffix committed selected.accepted
                viewChange := .clear, planned := .clear, activity := some time })

/-! ### The attempt -/

/-- The attempt kept open on a candidate record. Any planned overlap is abandoned by it. -/
def keepAttempt (r : Replica J) (candidate : Progress) (attempt : ViewChangeVolatile)
    (effects : List Effect) (kind : InputKind) : PlannedTransition :=
  (r.candidatePlan candidate .none effects kind false).withBookkeeping
    { viewChange := .set attempt, planned := .clear }

/-- The node's own evidence added once a fence quorum holds, with its report when another node
is the primary of the target. -/
def recordOwnEvidence (r : Replica J) (config : Configuration) (attempt : ViewChangeVolatile)
    (effects : List Effect) : Except PlanRefusal (ViewChangeVolatile × List Effect) :=
  if (attempt.evidence.get? r.own).isSome then .ok (attempt, effects)
  else if !r.strategy.isQuorum .fence config attempt.fences.keys then .ok (attempt, effects)
  else
    let own := r.ownEvidence
    let attempt := { attempt with evidence := attempt.evidence.insert r.own own }
    if r.primaryOf attempt.target = some r.own then .ok (attempt, effects)
    else do
      let report ← r.doViewChangeEffect own attempt.target
      return (attempt, effects ++ [report])

/-- The history selected once a quorum has reported; a selection is kept. -/
def selectOnQuorum (r : Replica J) (config : Configuration) (attempt : ViewChangeVolatile) :
    ViewChangeVolatile :=
  if attempt.selected.isSome then attempt
  else if r.strategy.isQuorum .viewChange config attempt.evidence.keys then
    { attempt with selected := selectHistory attempt.evidence }
  else attempt

/-- **One step of an open view change**: fence, report, select, win, as far as it goes. -/
def continueViewChange (r : Replica J) (candidate : Progress) (attempt : ViewChangeVolatile)
    (effects : List Effect) (time : Nat) (kind : InputKind) : Planned :=
  let target := attempt.target
  match r.progress.config.record target.era with
  | none => r.dropPlan (.unevaluableEra target.era) kind
  | some record => do
    let (attempt, effects) ← r.recordOwnEvidence record.config attempt effects
    if r.primaryOf target = some r.own ∧ (attempt.evidence.get? r.own).isSome then
      let attempt := r.selectOnQuorum record.config attempt
      match attempt.selected with
      | none => return r.keepAttempt candidate attempt effects kind
      | some (reporter, selected) =>
        match ← r.planWinView target selected attempt.evidence effects time kind with
        | .installed plan => return plan
        | .insufficient expected got effects =>
          let plan :=
            (r.keepAttempt candidate attempt effects kind).withDiagnostic
              (.gapDetected expected got)
          -- The first insufficient outcome asks the selected reporter; later ones leave the
          -- open fetch alone.
          if r.transfer.isNone then return plan.withFetch (fetch target reporter expected)
          else return plan
    else return r.keepAttempt candidate attempt effects kind

/-- The fence into a target, with the nodes already heard, and its announcement. -/
def enterViewChange (r : Replica J) (target : Ballot) (heard : OrdMap Nat Unit) (time : Nat)
    (kind : InputKind) : Planned := do
  let candidate ← asCandidate (r.progress.withViewChange target)
  let effects := sendAll r.backups target.era
    { header := { view := target, slot := Slot.none }, body := .startViewChange }
  r.continueViewChange candidate
    { target := target, fences := heard.insert r.own (), evidence := OrdMap.empty
      selected := none }
    effects time kind

/-- An operator forces the node into a view of its era or of the established one. -/
def planAdminForceView (r : Replica J) (target : Ballot) (time : Nat) : Planned :=
  let current := r.progress.current
  if target.view ≤ current.view then .error (.adminTargetNotAhead current target)
  else if target.era ≠ current.era ∧ target.era ≠ r.progress.config.current.era then
    .error (.adminEraNotCurrent current.era target.era)
  else if target.nextInEra.isNone then .error (.adminViewExhausted target)
  else r.enterViewChange target OrdMap.empty time .admin

/-! ### Handlers -/

def planStartViewChange (r : Replica J) (sender : Nat) (message : Message) (time : Nat)
    (kind : InputKind) : Planned :=
  let view := message.header.view
  match r.progress.config.record view.era with
  | none => r.dropPlan (.unevaluableEra view.era) kind
  | some record =>
    if (record.config.weightOf sender).isNone then r.dropPlan (.unknownSender sender) kind
    else
      match r.viewChange with
      | none =>
        let target := r.progress.current
        if view ≤ target then r.dropPlan (.staleViewChange view target) kind
        else r.enterViewChange view (OrdMap.empty.insert sender ()) time kind
      | some attempt =>
        if view < attempt.target then
          r.dropPlan (.staleViewChange view attempt.target) kind
        else if attempt.target < view then
          r.enterViewChange view (OrdMap.empty.insert sender ()) time kind
        else do
          let candidate ← r.identityCandidate
          r.continueViewChange candidate
            { attempt with fences := attempt.fences.insert sender () } [] time kind

/-- The first report of a node stands. -/
def collectEvidence (reports : OrdMap Nat Evidence) (sender : Nat) (evidence : Evidence) :
    OrdMap Nat Evidence :=
  if (reports.get? sender).isSome then reports else reports.insert sender evidence

/-- Ordinary evidence, collected by the primary of the open attempt's target. -/
def planOrdinaryEvidence (r : Replica J) (sender : Nat) (message : Message)
    (evidence : Evidence) (proof : EraProof) (time : Nat) (kind : InputKind) : Planned :=
  let header := message.header
  match r.progress.config.record header.view.era with
  | none => r.dropPlan (.unevaluableEra header.view.era) kind
  | some record =>
    if (record.config.weightOf sender).isNone then r.dropPlan (.unknownSender sender) kind
    else if header.slot ≠ evidence.accepted ∨ evidence.accepted < evidence.committed ∨
        suffixShapeOk evidence.suffix evidence.accepted = false ∨
        eraProofOk record proof = false then
      r.dropPlan .malformedViewChange kind
    else
      match r.viewChange with
      | none => r.dropPlan (.staleEvidence header.view r.progress.current) kind
      | some attempt =>
        if header.view < attempt.target then
          r.dropPlan (.staleEvidence header.view attempt.target) kind
        else if attempt.target < header.view ∨ r.primaryOf attempt.target ≠ some r.own then
          r.dropPlan (.evidenceNotCollected sender header.view) kind
        else do
          let collected := collectEvidence attempt.evidence sender evidence
          let candidate ← r.identityCandidate
          r.continueViewChange candidate { attempt with evidence := collected } [] time kind

/-- An offer of an era not on record: dropped, but retained and fetched for when the era is the
next one, or when the node is still at its boot fence and the era's operation names it. -/
def planUnevaluableOffer (r : Replica J) (sender : Nat) (message : Message) (proof : EraProof)
    (kind : InputKind) : Planned := do
  let era := message.header.view.era
  let current := r.progress.current
  let plan ← r.dropPlan (.unevaluableEra era) kind
  let next := Era.next current.era
  let retainable :=
    next == some era ||
      ((match next with
        | some successor => decide (successor < era)
        | none => false) && r.bootFenced && establishingOpNames proof.op r.own)
  if !retainable then return plan
  let plan := plan.withStalledOffer sender message
  if r.transfer.isSome then return plan
  match Slot.next r.progress.committed with
  | none => return plan
  | some next => return plan.withFetch (fetch current sender next)

/-- **The install of an announced view.** -/
def planStartView (r : Replica J) (sender : Nat) (message : Message) (suffix : List LogEntry)
    (accepted committed : Nat) (proof : EraProof) (time : Nat) (kind : InputKind) : Planned :=
  let header := message.header
  let current := r.progress.current
  match r.progress.config.record header.view.era with
  | none => r.planUnevaluableOffer sender message proof kind
  | some record =>
    if r.primaryOf header.view ≠ some sender then
      r.dropPlan (.startViewNotFromPrimary sender header.view) kind
    else if header.slot ≠ accepted ∨ accepted < committed ∨
        suffixShapeOk suffix accepted = false ∨ eraProofOk record proof = false then
      r.dropPlan .malformedViewChange kind
    else if ¬(current < header.view ∨
        (header.view = current ∧ r.progress.status = .viewChange)) then
      r.dropPlan (.startViewFromStaleView header.view current) kind
    else if committed < r.progress.committed ∨ accepted < r.progress.committed then
      r.dropPlan (.staleEvidence header.view current) kind
    else
      match r.checkSuffix suffix accepted committed r.progress.checkpoint with
      | .gap expected got => do
        -- The node stays fenced; the retained offer is judged again on a tick.
        let plan ← r.dropPlan (.gapDetected expected got) kind
        return (plan.withFetch (fetch header.view sender expected)).withStalledOffer sender message
      | .conflict => r.breachPlan kind
      | .install mutation => do
        let applied ← r.appliedWalk suffix r.progress.applied committed
        match r.foldCommitted suffix r.progress.committed committed false with
        | .error (.unavailable slot) => .error (.journalEntryUnavailable slot)
        | .error .splitBatch => r.dropPlan .fuseRefusal kind
        | .error (.breach _ _) => r.breachPlan kind
        | .ok folded =>
          let candidate ← r.installCandidate header.view accepted committed applied folded.config
          let effects ← r.applyEffectsMerged suffix r.progress.committed committed
          return (r.candidatePlan candidate mutation effects kind false).withBookkeeping
            { viewChange := .clear, stalled := .clear, planned := .clear
              activity := some time }

end Replica

end UvrrCore
