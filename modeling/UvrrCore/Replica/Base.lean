import UvrrCore.Replica.State

/-!
# What the handlers share

Candidates, the walks over the journal and the suffix rules: each handler of the later modules
is assembled from these.

* `candidateWith` and `installCandidate` build the next record, `dropPlan` and `breachPlan` the
  two transitions that move nothing.
* `appliedWalk`, `applyEffects` and `foldCommitted` walk the slots a commit newly covers.
* `boundedSuffix`, `checkSuffix` and `selectHistory` are the view-change rules about histories.

A loop over slots of the source is a recursion on the number of slots left.
-/

namespace UvrrCore

/-! ### Reading through an overlay -/

section Reading

variable {J : Type} [Journal J]

/-- The entry at a slot: the overlay's if it offers one, the journal's otherwise. -/
def merged (journal : J) (overlay : List LogEntry) (slot : Nat) : Option LogEntry :=
  match entryAt overlay slot with
  | some entry => some entry
  | none => Journal.get journal slot

@[simp] theorem merged_nil (journal : J) (slot : Nat) :
    merged journal [] slot = Journal.get journal slot := rfl

/-- The frontier advanced over the system entries that directly follow it. -/
def systemWalk (read : Nat → Option LogEntry) : (left walked : Nat) → Except PlanRefusal Nat
  | 0, walked => .ok walked
  | left + 1, walked =>
    match read (walked + 1) with
    | none => .error (.journalEntryUnavailable (walked + 1))
    | some entry =>
      if entry.payload.isSystem then systemWalk read left (walked + 1) else .ok walked

/-- The apply effects of the client operations in a range, in slot order. -/
def applyRange (read : Nat → Option LogEntry) :
    (left slot : Nat) → Except PlanRefusal (List Effect)
  | 0, _ => .ok []
  | left + 1, slot =>
    match read (slot + 1) with
    | none => .error (.journalEntryUnavailable (slot + 1))
    | some entry => do
      let rest ← applyRange read left (slot + 1)
      match entry.payload with
      | .operation id payload => return .apply (slot + 1) id payload :: rest
      | .system _ => return rest

/-- The entries of a chunk: ascending from a slot, as many as the bytes left hold. -/
def packChunk (journal : J) (budget : Nat) : (left slot bytes : Nat) → List LogEntry
  | 0, _, _ => []
  | left + 1, slot, bytes =>
    match Journal.get journal slot with
    | none => []
    | some entry =>
      if budget < bytes + entry.packedLen then []
      else entry :: packChunk journal budget left (slot + 1) (bytes + entry.packedLen)

end Reading

/-! ### Folding committed system operations -/

/-- The riders of one operation of a run. -/
def SystemOperation.riders : SystemOperation → List SystemOperation
  | .nominate start offset => [.nominate start offset]
  | .batch ops => ops
  | _ => []

/-- One rider: it moves the running ballot when it names its view. -/
def runRider (era : Nat) (running : Option Ballot) (rider : SystemOperation) : Option Ballot :=
  match rider, running with
  | .nominate start offset, some view =>
    if view.view = start ∧ start + offset < u32Bound then
      some { era := era, view := start + offset }
    else running
  | _, _ => running

def runNominations (running : Option Ballot) (ops : List SystemOperation) (era : Nat) :
    Option Ballot :=
  (ops.flatMap SystemOperation.riders).foldl (runRider era) running

/-- Why a commit cannot be folded. -/
inductive CommitFold where
  | unavailable (slot : Nat)
  | splitBatch
  | breach (slot : Nat) (error : ConfigError)
deriving DecidableEq, Repr

/-- The state of the fold: the table so far, the last slot covered, the ballot the nominations
run over, and whether the era window stopped it. -/
structure Folding where
  table : EraTable
  covered : Nat
  running : Option Ballot
  stopped : Bool

/-- The system entries of the same era that directly follow a slot. -/
def runAfter (read : Nat → Option LogEntry) (era : Nat) : (fuel slot : Nat) →
    List SystemOperation
  | 0, _ => []
  | fuel + 1, slot =>
    match Slot.next slot with
    | none => []
    | some follow =>
      match read follow with
      | none => []
      | some entry =>
        if entry.era ≠ era then []
        else
          match entry.payload with
          | .operation _ _ => []
          | .system op => op :: runAfter read era fuel follow

/-- The extension one run makes: the table, the operations whose riders run, and the last slot.
A run of several entries folds as one batch; a batch the table refuses falls back to its first
entry. -/
def extendRun (table : EraTable) (op : SystemOperation) (follow : List SystemOperation)
    (slot through : Nat) : Except CommitFold (EraTable × List SystemOperation × Nat) :=
  let single : Except CommitFold (EraTable × List SystemOperation × Nat) :=
    match table.extend op slot with
    | .ok extended => .ok (extended, [op], slot)
    | .error error => .error (.breach slot error)
  if follow.isEmpty then single
  else if through < slot + follow.length then .error .splitBatch
  else
    match table.extend (.batch (op :: follow)) slot with
    | .ok extended => .ok (extended, op :: follow, slot + follow.length)
    | .error _ => single

/-- The era window of a paced fold: an era more than one past the running ballot's stops the
fold unless its own nomination moves the ballot. -/
def windowSpent (current : Ballot) (running nominated : Option Ballot) (established : Nat) :
    Bool :=
  let carry := (running.map Ballot.era).getD current.era
  let past :=
    match Era.next carry with
    | some cap => decide (cap < established)
    | none => true
  past && nominated == running

/-- The fold over the slots up to `through`. Every round covers at least one slot, so the
number of slots left bounds the rounds. -/
def foldSlotsThrough (read : Nat → Option LogEntry) (runFuel : Nat) (current : Ballot)
    (through : Nat) (paced : Bool) : (rounds : Nat) → Folding → Except CommitFold Folding
  | 0, folding => .ok folding
  | rounds + 1, folding =>
    if through ≤ folding.covered then .ok folding
    else
      let next := folding.covered + 1
      match read next with
      | none => .error (.unavailable next)
      | some entry =>
        match entry.payload with
        | .operation _ _ =>
          foldSlotsThrough read runFuel current through paced rounds
            { folding with covered := next }
        | .system op =>
          match extendRun folding.table op (runAfter read entry.era runFuel next) next through with
          | .error error => .error error
          | .ok (extended, ops, last) =>
            let established := extended.current.era
            let nominated := runNominations folding.running ops established
            if paced && windowSpent current folding.running nominated established then
              .ok { folding with stopped := true }
            else
              foldSlotsThrough read runFuel current through paced rounds
                { folding with table := extended, covered := last, running := nominated }

/-- What a commit fold yields. -/
structure FoldedCommit where
  config : EraTable
  covered : Nat
  stopped : Bool
  bump : Option Ballot

/-! ### Suffixes -/

/-- Entries at consecutive slots ending at the accepted frontier, or no entries. -/
def suffixShapeOk (suffix : List LogEntry) (accepted : Nat) : Bool :=
  go none suffix
where
  go (expected : Option Nat) : List LogEntry → Bool
    | [] =>
      match suffix.getLast? with
      | some last => last.slot == accepted
      | none => true
    | entry :: rest =>
      match expected with
      | none => entry.slot != Slot.none && go (Slot.next entry.slot) rest
      | some next => entry.slot == next && go (Slot.next entry.slot) rest

/-- The verdict on an offered suffix. -/
inductive SuffixCheck where
  | install (mutation : JournalMutation)
  | gap (expected got : Nat)
  | conflict
deriving DecidableEq, Repr

/-- The verdict allows an install. -/
def SuffixCheck.installs : SuffixCheck → Bool
  | .install _ => true
  | .gap _ _ | .conflict => false

/-- What the comparison of a suffix with the journal found. -/
inductive SuffixScan where
  | agreed
  | differsAt (slot : Nat)
  | unverifiable (slot : Nat)
  | conflict
deriving DecidableEq, Repr

/-- The comparison, entry by entry: the first offered slot above the local frontier or with
another local entry decides. A slot the journal has let go of is vouched for up to
`discharged`. -/
def scanSuffix {J : Type} [Journal J] (journal : J) (localAccepted committed discharged : Nat) :
    List LogEntry → SuffixScan
  | [] => .agreed
  | entry :: rest =>
    if localAccepted < entry.slot then .differsAt entry.slot
    else
      match Journal.get journal entry.slot with
      | some held =>
        if held = entry then scanSuffix journal localAccepted committed discharged rest
        else if entry.slot ≤ committed then .conflict
        else .differsAt entry.slot
      | none =>
        if entry.slot ≤ discharged then scanSuffix journal localAccepted committed discharged rest
        else .unverifiable entry.slot

/-- The entries taken from the front while their bytes fit. -/
def takeFitting (budget : Nat) : (bytes : Nat) → List LogEntry → List LogEntry × Nat
  | bytes, [] => ([], bytes)
  | bytes, entry :: rest =>
    if budget < bytes + entry.packedLen then ([], bytes)
    else
      let (taken, total) := takeFitting budget (bytes + entry.packedLen) rest
      (entry :: taken, total)

/-- The journal's entries up to a slot, as many of the newest as fit, in ascending order. -/
def journalTail {J : Type} [Journal J] (journal : J) (budget : Nat) :
    (cursor bytes : Nat) → List LogEntry
  | 0, bytes => tailAt 0 bytes fun _ => []
  | cursor + 1, bytes => tailAt (cursor + 1) bytes (journalTail journal budget cursor)
where
  tailAt (cursor bytes : Nat) (below : Nat → List LogEntry) : List LogEntry :=
    let (first, last) := Journal.retained journal
    if cursor < first ∨ last < cursor then []
    else
      match Journal.get journal cursor with
      | none => []
      | some entry =>
        if budget < bytes + entry.packedLen then []
        else below (bytes + entry.packedLen) ++ [entry]

/-- The reporter with the highest retained ballot, then the highest accepted slot; the lowest
identity among equals. -/
def selectHistory (evidence : OrdMap Nat Evidence) : Option (Nat × Evidence) :=
  evidence.entries.foldl better none
where
  better (best : Option (Nat × Evidence)) (candidate : Nat × Evidence) :
      Option (Nat × Evidence) :=
    match best with
    | none => some candidate
    | some incumbent =>
      if incumbent.2.retained < candidate.2.retained ∨
          (candidate.2.retained = incumbent.2.retained ∧
            incumbent.2.accepted < candidate.2.accepted) then
        some candidate
      else some incumbent

namespace Replica

variable {J : Type} [Journal J]

/-! ### Candidates and the plain transitions -/

/-- A candidate refused by its check refuses the input. -/
def asCandidate (result : Except ProgressError Progress) : Except PlanRefusal Progress :=
  match result with
  | .ok candidate => .ok candidate
  | .error error => .error (.progress error)

def identityCandidate (r : Replica J) : Except PlanRefusal Progress :=
  asCandidate (r.progress.withStatus r.progress.status)

/-- The next record of a reconstituted shape, one revision on. -/
def nextRecord (r : Replica J) (data : ProgressData) : Except PlanRefusal Progress :=
  if r.progress.revision + 1 < u64Bound then
    asCandidate (Progress.reconstitute
      { data with
        checkpoint := r.progress.checkpoint, revision := r.progress.revision + 1
        fault := none })
  else .error (.progress .revisionExhausted)

/-- The record with new frontiers, status and table. A nominated view becomes current and
retained at once. -/
def candidateWith (r : Replica J) (status : Status) (accepted committed applied : Nat)
    (config : EraTable) (view : Option Ballot) : Except PlanRefusal Progress :=
  r.nextRecord
    { r.progress.toProgressData with
      current := view.getD r.progress.current, retained := view.getD r.progress.retained
      status := status, accepted := accepted, committed := committed, applied := applied
      config := config }

/-- The record of a replica that serves a selected history. -/
def installCandidate (r : Replica J) (view : Ballot) (accepted committed applied : Nat)
    (config : EraTable) : Except PlanRefusal Progress :=
  r.nextRecord
    { r.progress.toProgressData with
      current := view, retained := view, status := .normal, accepted := accepted
      committed := committed, applied := applied, config := config }

def progressIntent (old new : ProgressData) : ProgressIntent :=
  if old.current ≠ new.current ∨ old.retained ≠ new.retained ∨ old.status ≠ new.status ∨
      old.accepted ≠ new.accepted ∨ old.committed ≠ new.committed ∨
      old.applied ≠ new.applied ∨ old.checkpoint ≠ new.checkpoint ∨ old.fault ≠ new.fault then
    .record
  else .unchanged

def candidatePlan (r : Replica J) (candidate : Progress) (journal : JournalMutation)
    (effects : List Effect) (kind : InputKind) (completion : Bool) : PlannedTransition where
  base := r.progress.revision
  candidate := candidate
  journal := journal
  intent :=
    { revision := r.progress.revision
      progress := progressIntent r.progress.toProgressData candidate.toProgressData
      journal := journal.intent }
  effects := effects
  kind := kind
  completion := completion
  bookkeeping := {}
  diagnostic := .none
  fault := none

/-- A transition that releases effects and changes no record. -/
def emitPlan (r : Replica J) (effects : List Effect) (kind : InputKind) : Planned := do
  let candidate ← r.identityCandidate
  return r.candidatePlan candidate .none effects kind false

/-- The input is dropped with a diagnostic. -/
def dropPlan (r : Replica J) (diagnostic : Diagnostic) (kind : InputKind) : Planned := do
  let plan ← r.emitPlan [] kind
  return plan.withDiagnostic diagnostic

/-- The input shows a breach of the protocol: the publication will fault the node. -/
def breachPlan (r : Replica J) (kind : InputKind) : Planned := do
  let plan ← r.emitPlan [] kind
  return plan.withFaultDeclared .illegalTransition

/-! ### The walks of a commit -/

def appliedWalk (r : Replica J) (overlay : List LogEntry) (applied committed : Nat) :
    Except PlanRefusal Nat :=
  systemWalk (merged r.journal overlay) (committed - applied) applied

def applyEffects (r : Replica J) (start through : Nat) : Except PlanRefusal (List Effect) :=
  applyRange (merged r.journal []) (through - start) start

def applyEffectsMerged (r : Replica J) (suffix : List LogEntry) (start through : Nat) :
    Except PlanRefusal (List Effect) :=
  applyRange (merged r.journal suffix) (through - start) start

/-- More rounds than a run of readable slots can take. -/
def runFuel (r : Replica J) (overlay : List LogEntry) : Nat :=
  overlay.length + (Journal.accepted r.journal).getD 0 + 1

/-- The era table after the system operations in `(start, through]`, how far it covers, whether
the era window stopped it, and the ballot a nomination bumped to. Only a serving node's ballot
can match a rider. -/
def foldCommitted (r : Replica J) (overlay : List LogEntry) (start through : Nat)
    (paced : Bool) : Except CommitFold FoldedCommit :=
  let current := r.progress.current
  match foldSlotsThrough (merged r.journal overlay) (r.runFuel overlay) current through paced
      (through - start)
      { table := r.progress.config, covered := start
        running := if r.progress.status = .normal then some current else none
        stopped := false } with
  | .error error => .error error
  | .ok folding => .ok
      { config := folding.table, covered := folding.covered, stopped := folding.stopped
        bump := folding.running.filter fun view => view != current }

/-! ### Suffixes and evidence -/

/-- The newest entries up to the frontier that fit the budget. A packing that breaks inside the
overlay stops there: a suffix may be short, never holed. -/
def boundedSuffix (r : Replica J) (frontier : Nat) (overlay : List LogEntry) : List LogEntry :=
  let budget := r.knobs.viewChangeBudget
  let (picked, bytes) := takeFitting budget 0 overlay.reverse
  let start :=
    match overlay.head? with
    | some first => if picked.length = overlay.length then Slot.prev first.slot else none
    | none => some frontier
  let below :=
    match start with
    | some cursor => journalTail r.journal budget cursor bytes
    | none => []
  below ++ picked.reverse

/-- Whether an offered history can be installed over the journal, and by which mutation. -/
def checkSuffix (r : Replica J) (suffix : List LogEntry) (accepted committed discharged : Nat) :
    SuffixCheck :=
  let localAccepted := r.progress.accepted
  match suffix with
  | [] =>
    if accepted = localAccepted ∧ committed = localAccepted then .install .none
    else
      .gap ((Slot.next localAccepted).getD localAccepted) ((Slot.next accepted).getD accepted)
  | first :: _ =>
    let base := first.slot
    if Slot.next localAccepted ≠ some base ∧ localAccepted < base then
      .gap ((Slot.next localAccepted).getD localAccepted) base
    else
      let install (start : Nat) : SuffixCheck :=
        if accepted < start then
          -- Every offered slot agreed; a shorter history is installed over the longer one.
          if accepted < localAccepted then .install (.installSuffix base suffix)
          else .install .none
        else .install (.installSuffix start (suffix.dropWhile fun entry => entry.slot != start))
      match scanSuffix r.journal localAccepted r.progress.committed discharged suffix with
      | .conflict => .conflict
      | .unverifiable slot => .gap slot base
      | .differsAt slot => install slot
      | .agreed => install ((Slot.next accepted).getD accepted)

/-- The proposals of an installed history: one for each entry above the committed frontier. -/
def installedProposals (r : Replica J) (overlay : List LogEntry) (committed accepted : Nat) :
    List (Nat × Proposal) :=
  ((List.range (accepted - committed)).map fun offset => committed + 1 + offset).filterMap
    fun slot =>
      match merged r.journal overlay slot with
      | some _ => some (slot, { oks := [] })
      | none => none

/-- The proof of an era this node still has on record. -/
def eraProof (r : Replica J) (era : Nat) : Except PlanRefusal EraProof :=
  match r.progress.config.record era with
  | none => .error (.progress .eraSlotDiscipline)
  | some record =>
    .ok { op := record.establishingOperation, committedAt := record.establishedBy }

def eraProofOk (record : EraRecord) (proof : EraProof) : Bool :=
  proof.committedAt == record.establishedBy && proof.op == record.establishingOperation

/-! ### Sending -/

/-- The announced standby, while it has no vote. -/
def memoTarget (r : Replica J) : Option Nat :=
  match r.reincarnation with
  | none => none
  | some machine => if r.isVoter machine.new then none else some machine.new

/-- The nodes that follow the leader's stream without a vote. -/
def streamTargets (r : Replica J) : List Nat :=
  (r.witnesses.filter fun witness => !r.isVoter witness).foldl appendNew
    (r.memoTarget.elim [] fun standby => [standby])
where
  appendNew (targets : List Nat) (node : Nat) : List Nat :=
    if targets.contains node then targets else targets ++ [node]

/-- The backups and, behind them, the stream targets not among them. -/
def streamRecipients (r : Replica J) : List Nat :=
  r.streamTargets.foldl streamTargets.appendNew r.backups

def sendAll (recipients : List Nat) (era : Nat) (message : Message) : List Effect :=
  recipients.map fun recipient => .send recipient era message

def broadcastCommit (r : Replica J) (committed : Nat) : List Effect :=
  let current := r.progress.current
  sendAll r.streamRecipients current.era
    { header := { view := current, slot := committed }, body := .commit committed }

/-- A `GetState` for everything from a slot on, and the cursor that remembers it. -/
def fetch (view : Ballot) (recipient start : Nat) : Effect × TransferVolatile :=
  (.send recipient view.era
    { header := { view := view, slot := (Slot.prev start).getD Slot.none }
      body := .getState start },
   { view := view, recipient := recipient, next := start })

end Replica

end UvrrCore
