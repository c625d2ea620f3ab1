import UvrrCore.Replica.PlanExecution

/-!
# Normal operation

The serving primary proposes; the backups accept, acknowledge and learn the commit frontier.
An acknowledgement of a slot vouches for every lower outstanding slot as well, and the primary
commits the longest prefix of its accepted tail whose every slot a quorum acknowledged, one
segment (an entry with the system entries of its era that directly follow it) at a time.
-/

namespace UvrrCore

namespace Replica

variable {J : Type} [Journal J]

/-! ### Proposing -/

def planPropose (r : Replica J) (operation : Operation) : Planned := do
  let current := r.progress.current
  let _ ← r.proposerRecord
  let slot ← r.nextFreeSlot
  let era := r.progress.config.current.era
  let entry : LogEntry :=
    { slot := slot, era := era, payload := .operation operation.id operation.payload }
  r.proposalPlan [entry] slot r.streamRecipients era
    { header := { view := current, slot := slot }, body := .prepare entry r.progress.committed }
    .unchanged .clientRequest

/-! ### Accepting -/

def prepareOk (view : Ballot) (recipient slot : Nat) : Effect :=
  .send recipient view.era { header := { view := view, slot := slot }, body := .prepareOk }

/-- The judgement of the uncommitted system entries below an arriving one: the table after
folding them one by one, and the run of the arriving entry's era with the table before it and
its first slot. -/
structure Perimeter where
  chain : EraTable
  run : List SystemOperation
  runFirst : Nat
  chainAtRun : EraTable

/-- The fold of the predecessors in `(slot, slot + left]`. The error names the slot whose
entry refuses; an unreadable slot refuses the input. -/
def perimeterFold (r : Replica J) (era : Nat) :
    (left slot : Nat) → Perimeter → Except PlanRefusal (Except (Nat × ConfigError) Perimeter)
  | 0, _, perimeter => .ok (.ok perimeter)
  | left + 1, slot, perimeter =>
    match Journal.get r.journal (slot + 1) with
    | none => .error (.journalEntryUnavailable (slot + 1))
    | some held =>
      match held.payload with
      | .operation _ _ => r.perimeterFold era left (slot + 1) perimeter
      | .system op =>
        match perimeter.chain.extend op (slot + 1) with
        | .error error => .ok (.error (slot + 1, error))
        | .ok folded =>
          let opens := held.era = era ∧ perimeter.run = []
          r.perimeterFold era left (slot + 1)
            { chain := folded
              run := if held.era = era then perimeter.run ++ [op] else perimeter.run
              runFirst := if opens then slot + 1 else perimeter.runFirst
              chainAtRun := if opens then perimeter.chain else perimeter.chainAtRun }

/-- The refusal an arriving uncommitted system entry earns: it must fold behind its accepted
predecessors, in the batch of its run or alone. -/
def perimeterRefusal (r : Replica J) (config : EraTable) (committed : Nat) (entry : LogEntry)
    (op : SystemOperation) : Except PlanRefusal (Option (Nat × ConfigError)) := do
  let judged ←
    r.perimeterFold entry.era (entry.slot - 1 - committed) committed
      { chain := config, run := [], runFirst := entry.slot, chainAtRun := config }
  match judged with
  | .error refusal => return some refusal
  | .ok perimeter =>
    let alone :=
      match perimeter.chain.extend op entry.slot with
      | .ok _ => none
      | .error error => some (entry.slot, error)
    if perimeter.run = [] then return alone
    else
      match perimeter.chainAtRun.extend (.batch (perimeter.run ++ [op])) perimeter.runFirst with
      | .ok _ => return none
      | .error _ => return alone

/-- Only a system entry that stays uncommitted is judged. -/
def uncommittedRefusal (r : Replica J) (config : EraTable) (committed : Nat) (entry : LogEntry) :
    Except PlanRefusal (Option (Nat × ConfigError)) :=
  match entry.payload with
  | .operation _ _ => .ok none
  | .system op =>
    if committed < entry.slot then r.perimeterRefusal config committed entry op else .ok none

/-- A retransmission of a held slot: acknowledged again when it is the held entry. -/
def planHeldPrepare (r : Replica J) (sender : Nat) (entry : LogEntry) (piggybacked : Nat)
    (status : Status) (kind : InputKind) : Planned :=
  let accepted := r.progress.accepted
  let committed := r.progress.committed
  match Journal.get r.journal entry.slot with
  | none => .error (.journalEntryUnavailable entry.slot)
  | some held =>
    if held ≠ entry then r.dropPlan (.conflictingEntry entry.slot) kind
    else
      match r.foldCommitted [] committed (max committed (min piggybacked accepted)) true with
      | .error (.unavailable slot) => .error (.journalEntryUnavailable slot)
      | .error .splitBatch => r.dropPlan .fuseRefusal kind
      | .error (.breach _ _) => r.breachPlan kind
      | .ok folded => do
        let applied ← r.appliedWalk [] r.progress.applied folded.covered
        let candidate ←
          r.candidateWith status accepted folded.covered applied folded.config folded.bump
        let applies ← r.applyEffects committed folded.covered
        return r.candidatePlan candidate .none
          (prepareOk r.progress.current sender entry.slot :: applies) kind false

/-- The acceptance of the next slot, with the commit frontier it carries. -/
def planNextPrepare (r : Replica J) (sender : Nat) (view : Ballot) (entry : LogEntry)
    (piggybacked : Nat) (status : Status) (kind : InputKind) : Planned :=
  let committed := r.progress.committed
  match r.foldCommitted [entry] committed (max committed (min piggybacked entry.slot)) true with
  | .error (.unavailable slot) => .error (.journalEntryUnavailable slot)
  | .error .splitBatch => r.dropPlan .fuseRefusal kind
  | .error (.breach slot error) =>
    if slot = entry.slot then r.dropPlan (.invalidSystemOperation slot error) kind
    else r.breachPlan kind
  | .ok folded => do
    let newCommitted := folded.covered
    match ← r.uncommittedRefusal folded.config newCommitted entry with
    | some (slot, error) => r.dropPlan (.invalidSystemOperation slot error) kind
    | none =>
      if newCommitted < entry.slot ∧ folded.config.current.era < entry.era then
        r.dropPlan (.eraDiscipline entry.era view) kind
      else
        let applied ← r.appliedWalk [entry] r.progress.applied newCommitted
        let candidate ←
          r.candidateWith status entry.slot newCommitted applied folded.config folded.bump
        -- The effects are read from the journal as it is, without the arriving entry.
        let applies ← r.applyEffects committed newCommitted
        return r.candidatePlan candidate (.accept [entry])
          (prepareOk r.progress.current sender entry.slot :: applies) kind false

def planPrepare (r : Replica J) (sender : Nat) (message : Message) (entry : LogEntry)
    (piggybacked time : Nat) (kind : InputKind) : Planned :=
  let header := message.header
  let current := r.progress.current
  if (r.progress.config.record header.view.era).isNone then
    r.dropPlan (.unevaluableEra header.view.era) kind
  else if r.primaryOf header.view ≠ some sender then
    r.dropPlan (.senderNotPrimary sender header.view) kind
  else if current < header.view ∧ r.bootFenced = false then
    r.planHigherViewSignal sender header.view time kind
  else if header.view ≠ current then r.dropPlan (.viewMismatch header.view current) kind
  else if r.progress.status ≠ .normal ∧ r.bootFenced = false then
    r.dropPlan (.statusGate header.view current r.progress.status) kind
  else if ¬(entry.era = header.view.era ∨ Era.next header.view.era = some entry.era) then
    r.dropPlan (.eraDiscipline entry.era header.view) kind
  else if header.slot ≠ entry.slot then
    r.dropPlan (.prepareSlotMismatch header.slot entry.slot) kind
  else
    let status := r.adoptedStatus header.view
    let accepted := r.progress.accepted
    if entry.slot ≤ accepted then r.planHeldPrepare sender entry piggybacked status kind
    else
      match Slot.next accepted with
      | none => .error .slotSpaceExhausted
      | some next =>
        if entry.slot ≠ next then do
          let plan ← r.dropPlan (.gapDetected next entry.slot) kind
          return plan.withFetch (fetch current sender next)
        else r.planNextPrepare sender header.view entry piggybacked status kind

/-! ### Committing -/

/-- The segment that begins at a slot, by its last slot: the entry there and the system entries
of its era that directly follow. -/
def commitSegment (r : Replica J) (next accepted : Nat) : Nat :=
  match Journal.get r.journal next with
  | none => next
  | some head => next + follow head.era (accepted - next) next
where
  /-- How many system entries of the era directly follow. -/
  follow (era : Nat) : (left slot : Nat) → Nat
    | 0, _ => 0
    | left + 1, slot =>
      match Journal.get r.journal (slot + 1) with
      | none => 0
      | some entry =>
        if entry.payload.isSystem ∧ entry.era = era then 1 + follow era left (slot + 1) else 0

/-- Who vouches for a slot: the primary, the recorded acknowledgements, the arriving vote. -/
def vouchers (r : Replica J) (vote : Option (Nat × Nat)) (slot : Nat) : List Nat :=
  let members := r.own :: ((r.proposals.get? slot).map Proposal.oks).getD []
  match vote with
  | some (voter, voted) =>
    if slot ≤ voted ∧ members.contains voter = false then members ++ [voter] else members
  | none => members

def slotHolds (r : Replica J) (vote : Option (Nat × Nat)) (slot : Nat) : Bool :=
  r.strategy.isQuorum .commit r.progress.config.current.config (r.vouchers vote slot)

/-- The frontier after the segments whose every slot a quorum vouches for. -/
def cascade (r : Replica J) (vote : Option (Nat × Nat)) : (rounds committed : Nat) → Nat
  | 0, committed => committed
  | rounds + 1, committed =>
    let next := committed + 1
    if r.progress.accepted < next then committed
    else
      let last := r.commitSegment next r.progress.accepted
      if ((List.range (last + 1 - next)).map (next + ·)).all (r.slotHolds vote) then
        r.cascade vote rounds last
      else committed

def commitCascadeFrontier (r : Replica J) (vote : Option (Nat × Nat)) : Nat :=
  r.cascade vote (r.progress.accepted - r.progress.committed) r.progress.committed

def standingCommitFrontier (r : Replica J) : Nat := r.commitCascadeFrontier none

/-- One `CommitBatch` for each run of several system entries a commit covers. -/
def commitBatchEffects (r : Replica J) (through : Nat) : (rounds slot : Nat) → List Effect
  | 0, _ => []
  | rounds + 1, slot =>
    let next := slot + 1
    if through < next then []
    else
      match Journal.get r.journal next with
      | none => []
      | some entry =>
        match entry.payload with
        | .operation _ _ => r.commitBatchEffects through rounds next
        | .system _ =>
          let last := r.commitSegment next through
          let announcement :=
            if next < last then
              sendAll r.streamRecipients r.progress.current.era
                { header := { view := r.progress.current, slot := last }
                  body := .commitBatch ((List.range (last + 1 - next)).map (next + ·)) }
            else []
          announcement ++ r.commitBatchEffects through rounds last

/-- The transition of a counted vote: the commit is folded, applied and announced. -/
def finishCommitQuorum (r : Replica J) (committed : Nat) (oks : List (Nat × Nat))
    (kind : InputKind) : Planned :=
  let start := r.progress.committed
  if committed = start then do
    let plan ← r.emitPlan [] kind
    return plan.withBookkeeping { oks := oks }
  else
    match r.foldCommitted [] start committed true with
    | .error (.unavailable slot) => .error (.journalEntryUnavailable slot)
    | .error .splitBatch => r.dropPlan .fuseRefusal kind
    | .error (.breach _ _) => r.breachPlan kind
    | .ok folded => do
      let committed := folded.covered
      let (config, solicitation, planned) ← r.overlapSolicitation folded.config committed
      let applied ← r.appliedWalk [] r.progress.applied committed
      let candidate ←
        r.candidateWith .normal r.progress.accepted committed applied config folded.bump
      let applies ← r.applyEffects start committed
      return (r.candidatePlan candidate .none
        (applies ++ r.broadcastCommit committed ++
          r.commitBatchEffects committed (committed - start) start ++ solicitation)
        kind false).withBookkeeping
          { oks := oks, planned := planned
            planExecution := r.planExecutionCommit start committed }

/-- The outstanding slots a vote on `slot` vouches for. -/
def vouchedSlots (r : Replica J) (sender slot : Nat) : List (Nat × Nat) :=
  (((List.range (slot - r.progress.committed)).map (r.progress.committed + 1 + ·)).filter
    fun covered => (r.proposals.get? covered).isSome).map fun covered => (covered, sender)

/-- The count of an acknowledgement at the serving primary. The diagnostics are the message
kind's own. -/
def countVote (r : Replica J) (sender slot : Nat) (unknown learner foreign duplicate : Diagnostic)
    (kind : InputKind) : Planned :=
  match r.committedWeight sender with
  | none => r.dropPlan unknown kind
  | some 0 => do
    -- A learner's vote counts for nothing, but the standing question is asked again.
    let plan ← r.finishCommitQuorum r.standingCommitFrontier [] kind
    return plan.withDiagnostic learner
  | some (_ + 1) =>
    match if slot ≤ r.progress.committed then none else r.proposals.get? slot with
    | none => r.dropPlan foreign kind
    | some proposal =>
      if proposal.oks.contains sender then r.dropPlan duplicate kind
      else
        r.finishCommitQuorum (r.commitCascadeFrontier (some (sender, slot)))
          (r.vouchedSlots sender slot) kind

def planPrepareOk (r : Replica J) (sender : Nat) (message : Message) (kind : InputKind) :
    Planned :=
  let header := message.header
  let slot := header.slot
  if !r.isLeader then r.dropPlan (.prepareOkNotPrimary sender slot) kind
  else if header.view ≠ r.progress.current then
    r.dropPlan (.viewMismatch header.view r.progress.current) kind
  else
    r.countVote sender slot (.unknownSender sender) (.learnerSender sender)
      (.slotNotOutstanding slot sender) (.duplicatePrepareOk slot sender) kind

def planFuseOk (r : Replica J) (sender : Nat) (message : Message) (kind : InputKind) : Planned :=
  let header := message.header
  if !r.isLeader then r.dropPlan .fuseRefusal kind
  else if header.view ≠ r.progress.current then r.dropPlan .fuseRefusal kind
  else
    r.countVote sender header.slot .fuseRefusal .fuseRefusal .fuseRefusal .fuseRefusal kind

/-! ### Learning the commit frontier -/

def planCommit (r : Replica J) (sender : Nat) (message : Message) (frontier time : Nat)
    (kind : InputKind) : Planned :=
  let view := message.header.view
  let current := r.progress.current
  if (r.progress.config.record view.era).isNone then r.dropPlan (.unevaluableEra view.era) kind
  else if r.primaryOf view ≠ some sender then r.dropPlan (.senderNotPrimary sender view) kind
  else if current < view ∧ r.bootFenced = false then
    r.planHigherViewSignal sender view time kind
  else if view ≠ current then r.dropPlan (.viewMismatch view current) kind
  else if r.progress.status ≠ .normal ∧ r.bootFenced = false then
    r.dropPlan (.statusGate view current r.progress.status) kind
  else
    let status := r.adoptedStatus view
    let committed := r.progress.committed
    let newCommitted := max committed (min frontier r.progress.accepted)
    if newCommitted = committed ∧ status = r.progress.status then r.emitPlan [] kind
    else
      match r.foldCommitted [] committed newCommitted true with
      | .error (.unavailable slot) => .error (.journalEntryUnavailable slot)
      | .error .splitBatch => r.dropPlan .fuseRefusal kind
      | .error (.breach _ _) => r.breachPlan kind
      | .ok folded => do
        let applied ← r.appliedWalk [] r.progress.applied folded.covered
        let candidate ←
          r.candidateWith status r.progress.accepted folded.covered applied folded.config
            folded.bump
        let applies ← r.applyEffects committed folded.covered
        return r.candidatePlan candidate .none applies kind false

end Replica

end UvrrCore
