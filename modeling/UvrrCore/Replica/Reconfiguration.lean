import UvrrCore.Replica.Transfer

/-!
# Reconfiguration

The primary proposes one establishing operation at a time, behind the gates of
`reconfigureGates`, either as one entry (`planReconfigure`) or as a slab of entries in one
`Fuse` envelope (`planFuseBatch`); `planFuse` is the receiver of the envelope.

With a pivot the era switch runs without stopping: once the establishing operation commits the
leader solicits planned evidence from `qI` (`overlapSolicitation`), and when all of it has
answered it switches to the ballot named at the proposal (`planPlannedEvidence`).
-/

namespace UvrrCore

/-- The most operations one `Fuse` envelope packs. -/
abbrev fuseMaxOps : Nat := 7

namespace Replica

variable {J : Type} [Journal J]

/-! ### The gates of a proposal -/

/-- The first uncommitted slot that holds a system entry, if the range is readable. -/
def outstandingSystem (r : Replica J) : (left slot : Nat) → Except PlanRefusal (Option Nat)
  | 0, _ => .ok none
  | left + 1, slot =>
    match Journal.get r.journal (slot + 1) with
    | none => .error (.journalEntryUnavailable (slot + 1))
    | some entry =>
      if entry.payload.isSystem then .ok (some (slot + 1))
      else r.outstandingSystem left (slot + 1)

/-- One era transition in flight, one establishing operation in flight, the operation folds, and
the quorums of the two eras intersect. -/
def reconfigureGates (r : Replica J) (op : SystemOperation) (slot : Nat) :
    Except PlanRefusal EraTable := do
  let current := r.progress.current
  let established := r.progress.config.current.era
  if established ≠ current.era then
    throw (.eraTransitionOutstanding current.era established)
  match ← r.outstandingSystem (r.progress.accepted - r.progress.committed) r.progress.committed with
  | some outstanding => throw (.reconfigureOutstanding outstanding)
  | none => pure ()
  let nextTable ←
    match r.progress.config.extend op slot with
    | .ok table => .ok table
    | .error error => .error (.reconfigure error)
  match r.currentRecord with
  | none => throw (.progress .eraSlotDiscipline)
  | some record =>
    match validateTransition r.strategy record.config nextTable.current.config with
    | .error error => throw (.reconfigureQuorum error)
    | .ok () =>
      match validateEra r.strategy nextTable.current.config with
      | .error error => throw (.reconfigureQuorum error)
      | .ok () => return nextTable

/-- The record of the current era, for the primary of the current ballot only. -/
def proposerRecord (r : Replica J) : Except PlanRefusal EraRecord :=
  match r.currentRecord with
  | none => .error (.progress .eraSlotDiscipline)
  | some record =>
    let current := r.progress.current
    if r.progress.status = .normal ∧ record.config.primary current.view = some r.own then
      .ok record
    else .error (.notPrimary current (record.config.primary current.view))

def nextFreeSlot (r : Replica J) : Except PlanRefusal Nat :=
  match Slot.next r.progress.accepted with
  | some slot => .ok slot
  | none => .error .slotSpaceExhausted

/-- The overlap a pivot opens: the target is the least later view that selects this node's
position in the new order. -/
def armOverlap (r : Replica J) (slot : Nat) (pivot : Pivot) (next : EraRecord) :
    Except PlanRefusal PlannedOverlap :=
  let current := r.progress.current
  match next.config.order.findIdx? fun member => member.node == r.own with
  | none => .error .panicked
  | some index =>
    match nextViewSelecting current.view index next.config.order.length with
    | none => .error (.reconfigureViewExhausted current)
    | some view =>
      .ok
        { establishing := slot, pivot := pivot, target := { era := next.era, view := view }
          solicited := false, evidence := OrdMap.empty }

/-- The proposal of journaled entries: they are accepted, announced and outstanding. -/
def proposalPlan (r : Replica J) (entries : List LogEntry) (last : Nat)
    (recipients : List Nat) (era : Nat) (message : Message) (planned : Update PlannedOverlap)
    (kind : InputKind) : Planned := do
  let candidate ←
    r.candidateWith r.progress.status last r.progress.committed r.progress.applied
      r.progress.config none
  return (r.candidatePlan candidate (.accept entries) (sendAll recipients era message) kind
    false).withBookkeeping
      { proposals := entries.map fun entry => (entry.slot, { oks := [] }), planned := planned }

/-- Who hears of the proposal, and the overlap it arms: the stream without a pivot, `qII` with
one. -/
def proposalRoute (r : Replica J) (record next : EraRecord) (slot : Nat) :
    Option Pivot → Except PlanRefusal (List Nat × Update PlannedOverlap)
  | none => .ok (r.streamRecipients, .unchanged)
  | some pivot =>
    match validatePivot r.strategy record.config next.config r.own pivot with
    | .error error => .error (.reconfigurePivot error)
    | .ok () =>
      match r.armOverlap slot pivot next with
      | .error refusal => .error refusal
      | .ok overlap => .ok (pivot.qII.filter (fun node => node != r.own), .set overlap)

/-- **The proposal of an establishing operation.** -/
def planReconfigure (r : Replica J) (op : SystemOperation) (pivot : Option Pivot) : Planned := do
  let current := r.progress.current
  let record ← r.proposerRecord
  let slot ← r.nextFreeSlot
  let nextTable ← r.reconfigureGates op slot
  let (recipients, planned) ← r.proposalRoute record nextTable.current slot pivot
  let entry : LogEntry := { slot := slot, era := current.era, payload := .system op }
  r.proposalPlan [entry] slot recipients current.era
    { header := { view := current, slot := slot }, body := .prepare entry r.progress.committed }
    planned .reconfiguration

/-! ### Fused slabs -/

/-- The entries of a slab, at consecutive slots from `slot`. -/
def slabEntries : (slot : Nat) → List SystemOperation → List Nat →
    Except PlanRefusal (List LogEntry)
  | slot, op :: ops, era :: eras =>
    if slot < u64Bound then do
      let rest ← slabEntries (slot + 1) ops eras
      return { slot := slot, era := era, payload := .system op } :: rest
    else .error .slotSpaceExhausted
  | _, _, _ => .ok []

/-- The stamps of a slab that a leader proposes. -/
def slabStamps (config : Configuration) (ops : List SystemOperation) :
    Except PlanRefusal (List Nat) :=
  match config.foldSlots ops with
  | .ok (eras, _) => .ok eras
  | .error .panicked => .error .panicked
  | .error error => .error (.reconfigure error)

/-- The proposal of a batch as one envelope: one entry for each operation, each stamped with
the era of its own slot. -/
def planFuseBatch (r : Replica J) (ops : List SystemOperation) : Planned := do
  let current := r.progress.current
  let record ← r.proposerRecord
  let firstSlot ← r.nextFreeSlot
  let _ ← r.reconfigureGates (.batch ops) firstSlot
  let eras ← slabStamps record.config ops
  let entries ← slabEntries firstSlot ops eras
  match entries.getLast? with
  | none => throw .panicked
  | some last =>
    r.proposalPlan entries last.slot r.streamRecipients current.era
      { header := { view := current, slot := firstSlot }, body := .fuse ops }
      .unchanged .reconfiguration

/-- A step of a plan goes as an envelope when it packs, as one entry otherwise. -/
def planStepProposal (r : Replica J) (batch : SystemOperation) : Planned :=
  match batch with
  | .batch ops =>
    if 2 ≤ ops.length ∧ ops.length ≤ fuseMaxOps then r.planFuseBatch ops
    else r.planReconfigure batch none
  | _ => r.planReconfigure batch none

/-- The status a same-view message leaves a replica in: a boot-fenced member adopts the view. -/
def adoptedStatus (r : Replica J) (view : Ballot) : Status :=
  let memberOfView :=
    match r.progress.config.record view.era with
    | none => false
    | some record => (record.config.weightOf r.own).isSome
  if r.progress.status.isBoot && memberOfView then .normal else r.progress.status

/-- A fused envelope, folded whole or dropped whole. -/
def planFuse (r : Replica J) (sender : Nat) (message : Message) (ops : List SystemOperation)
    (time : Nat) (kind : InputKind) : Planned :=
  let header := message.header
  let current := r.progress.current
  if (r.progress.config.record header.view.era).isNone then r.dropPlan .fuseRefusal kind
  else if r.primaryOf header.view ≠ some sender then r.dropPlan .fuseRefusal kind
  else if r.primaryOf header.view = some r.own then r.dropPlan .fuseRefusal kind
  else if current < header.view ∧ r.bootFenced = false then
    r.planHigherViewSignal sender header.view time kind
  else if ¬(header.view = current ∧ (r.progress.status = .normal ∨ r.bootFenced = true)) then
    r.dropPlan .fuseRefusal kind
  else
    match Slot.next r.progress.accepted with
    | none => .error .slotSpaceExhausted
    | some firstSlot =>
      if header.slot ≠ firstSlot then r.dropPlan .fuseRefusal kind
      else
        match r.progress.config.current.config.foldSlots ops with
        | .error .panicked => .error .panicked
        | .error _ => r.dropPlan .fuseRefusal kind
        | .ok (eras, _) => do
          let entries ← slabEntries firstSlot ops eras
          match entries.getLast? with
          | none => throw .panicked
          | some last =>
            let candidate ←
              r.candidateWith (r.adoptedStatus header.view) last.slot r.progress.committed
                r.progress.applied r.progress.config none
            return r.candidatePlan candidate (.accept entries)
              [.send sender header.view.era
                { header := { view := current, slot := last.slot }
                  body := .fuseOk (entries.map LogEntry.slot) }]
              kind false

/-! ### The planned overlap -/

/-- The solicitation of an armed overlap whose establishing operation this commit covers: the
pivot goes on record and `qI` is asked. -/
def overlapSolicitation (r : Replica J) (config : EraTable) (covered : Nat) :
    Except PlanRefusal (EraTable × List Effect × Update PlannedOverlap) :=
  match r.planned with
  | none => .ok (config, [], .unchanged)
  | some planned =>
    if planned.solicited ∨ planned.establishing ≤ r.progress.committed ∨
        covered < planned.establishing ∨
        config.current.establishedBy ≠ planned.establishing then
      .ok (config, [], .unchanged)
    else
      match config.withTransitionPivot config.current.era planned.pivot with
      | none => .error .panicked
      | some config =>
        .ok
          (config,
           sendAll (planned.pivot.qI.filter fun node => node != r.own) r.progress.current.era
             { header := { view := planned.target, slot := Slot.none }, body := .plannedViewChange },
           .set { planned with solicited := true, evidence := OrdMap.empty })

/-- The answer of a serving replica to a solicitation. It is no fence: the replica stays in its
view. -/
def planPlannedViewChange (r : Replica J) (sender : Nat) (message : Message)
    (kind : InputKind) : Planned :=
  let view := message.header.view
  let current := r.progress.current
  if Era.next current.era ≠ some view.era then
    if (r.progress.config.record view.era).isNone then
      r.dropPlan (.unevaluableEra view.era) kind
    else r.dropPlan (.staleEvidence view current) kind
  else if r.primaryOf current ≠ some sender then
    r.dropPlan (.senderNotPrimary sender current) kind
  else if r.progress.status ≠ .normal then
    r.dropPlan (.staleViewChange view current) kind
  else do
    let accepted := r.progress.accepted
    let proof ← r.eraProof current.era
    let plan ← r.emitPlan
      [.send sender current.era
        { header := { view := view, slot := accepted }
          body := .doViewChange r.progress.retained accepted r.progress.committed
            (r.boundedSuffix accepted []) .planned proof }]
      kind
    -- The range that establishes the successor era is fetched when it is not on record yet.
    match (r.progress.config.record view.era).isNone, Slot.next accepted with
    | true, some next => return plan.withFetch (fetch current sender next)
    | _, _ => return plan

/-- The switch of a completed planned quorum: the leader serves the target with its own
history and announces it. -/
def planPlannedSwitch (r : Replica J) (target : Ballot) (time : Nat) (kind : InputKind) :
    Planned := do
  let accepted := r.progress.accepted
  let committed := r.progress.committed
  let candidate ←
    r.installCandidate target accepted committed r.progress.applied r.progress.config
  let proof ← r.eraProof target.era
  let others :=
    (r.progress.config.current.config.order.map Member.node).filter fun node => node != r.own
  return (r.candidatePlan candidate .none
    (sendAll others target.era
      { header := { view := target, slot := accepted }
        body := .startView (r.boundedSuffix accepted []) accepted committed proof })
    kind false).withBookkeeping { planned := .clear, activity := some time }

/-- Planned evidence at the soliciting leader. -/
def planPlannedEvidence (r : Replica J) (sender : Nat) (message : Message)
    (evidence : Evidence) (proof : EraProof) (time : Nat) (kind : InputKind) : Planned :=
  let header := message.header
  let current := r.progress.current
  match r.planned with
  | none => r.dropPlan (.staleEvidence header.view current) kind
  | some planned =>
    if planned.solicited = false ∨ header.view ≠ planned.target then
      r.dropPlan (.staleEvidence header.view current) kind
    else if sender = r.own ∨ planned.pivot.qI.contains sender = false then
      r.dropPlan (.evidenceNotCollected sender header.view) kind
    else
      match r.currentRecord with
      | none => .error (.progress .eraSlotDiscipline)
      | some record =>
        if header.slot ≠ evidence.accepted ∨ evidence.accepted < evidence.committed ∨
            suffixShapeOk evidence.suffix evidence.accepted = false ∨
            eraProofOk record proof = false then
          r.dropPlan .malformedViewChange kind
        else
          let collected := collectEvidence planned.evidence sender evidence
          if planned.pivot.qI.all fun member =>
              member == r.own || (collected.get? member).isSome then
            r.planPlannedSwitch planned.target time kind
          else do
            let plan ← r.emitPlan [] kind
            return plan.withBookkeeping { planned := .set { planned with evidence := collected } }

/-- Evidence goes by its kind: planned evidence never counts in an ordinary attempt. -/
def planDoViewChange (r : Replica J) (sender : Nat) (message : Message) (evidence : Evidence)
    (evidenceKind : EvidenceKind) (proof : EraProof) (time : Nat) (kind : InputKind) : Planned :=
  match evidenceKind with
  | .planned => r.planPlannedEvidence sender message evidence proof time kind
  | .ordinary => r.planOrdinaryEvidence sender message evidence proof time kind

end Replica

end UvrrCore
