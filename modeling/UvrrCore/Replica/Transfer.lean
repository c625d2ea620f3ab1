import UvrrCore.Replica.ViewChange

/-!
# State transfer

A node that misses a range asks one responder for it (`GetState`) and remembers the view it
asked under, the responder and the next slot. A responder answers with a chunk of its journal
(`NewState`) that echoes the request's view. The chunk qualifies at the requester by that view
and that responder, is checked like a view-change suffix, and is installed.

A node still at its boot fence takes commits from a chunk too, as far as its era window carries
it; `walkedView` is the ballot its fold walks into when the window stops it.
-/

namespace UvrrCore

namespace Replica

variable {J : Type} [Journal J]

/-- A message of a higher view proves the node stale: fence into that view and ask its sender
for what follows the accepted frontier. -/
def planHigherViewSignal (r : Replica J) (sender : Nat) (view : Ballot) (time : Nat)
    (kind : InputKind) : Planned := do
  let plan ← r.enterViewChange view OrdMap.empty time kind
  match Slot.next r.progress.accepted with
  | some next => return plan.withFetch (fetch view sender next)
  | none => return plan

/-! ### Serving -/

/-- The chunk a responder answers with: from the requested slot to its frontier, within the
budget. -/
def servedChunk (r : Replica J) (start : Nat) : List LogEntry :=
  packChunk r.journal r.knobs.viewChangeBudget (r.progress.accepted + 1 - start) start 0

/-- A member of the era the request names. -/
def memberThen (r : Replica J) (view : Ballot) (sender : Nat) : Bool :=
  match r.progress.config.record view.era with
  | none => false
  | some record => (record.config.weightOf sender).isSome

def planGetState (r : Replica J) (sender : Nat) (message : Message) (start : Nat)
    (kind : InputKind) : Planned :=
  let view := message.header.view
  if !r.memberThen view sender && (r.committedWeight sender).isNone then
    r.dropPlan (.unknownSender sender) kind
  else
    match r.progress.status with
    | .restarting | .joining | .replaying => r.dropPlan (.transferNotServed sender view) kind
    | .normal | .viewChange =>
      match (r.servedChunk start).getLast? with
      | none => r.dropPlan (.transferNotServed sender view) kind
      | some last =>
        r.emitPlan
          [.send sender view.era
            { header := { view := view, slot := last.slot }
              body := .newState (r.servedChunk start) last.slot r.progress.committed
                (decide (last.slot < r.progress.accepted)) }]
          kind

/-! ### Installing a chunk -/

/-- A chunk answers the open fetch, or reaches a boot-fenced node that opened none. -/
def chunkQualified (r : Replica J) (sender : Nat) (view : Ballot) : Bool :=
  match r.transfer with
  | some fetch => fetch.view == view && fetch.recipient == sender
  | none => r.bootFenced && view == r.progress.current

/-- The node acquires its history at its boot fence, under the view it booted with. -/
def bootAcquisition (r : Replica J) (view : Ballot) : Bool :=
  view == r.progress.current && r.bootFenced

/-- The retained offer caps what an acquisition commits, so that it stays installable. -/
def bootCap (r : Replica J) : Option Nat :=
  match r.stalled with
  | none => none
  | some offer =>
    match offer.message.body with
    | .startView _ _ committed _ => some committed
    | _ => none

/-- The committed frontier a chunk supports before folding. Only the current view's own
transfer and the boot acquisition move it. -/
def chunkCommit (r : Replica J) (view : Ballot) (committed newAccepted : Nat) : Nat :=
  if r.bootAcquisition view then
    max r.progress.committed (min ((r.bootCap.map (min committed)).getD committed) newAccepted)
  else if view = r.progress.current ∧ r.progress.status = .normal then
    max r.progress.committed (min committed newAccepted)
  else r.progress.committed

/-- The candidate of a chunk whose fold walked the boot view into the next era. -/
def walkedCandidate (r : Replica J) (target : Ballot) (accepted committed applied : Nat)
    (config : EraTable) : Except PlanRefusal Progress :=
  r.nextRecord
    { r.progress.toProgressData with
      current := target, retained := target, accepted := accepted, committed := committed
      applied := applied, config := config }

/-- The fetch that follows a chunk: onward while more is to come, closed otherwise. -/
def chunkCursor (view : Ballot) (sender accepted : Nat) (onward : Bool) :
    List Effect × Update TransferVolatile :=
  if onward then
    match Slot.next accepted with
    | some next => ([(fetch view sender next).1], .set (fetch view sender next).2)
    | none => ([], .clear)
  else ([], .clear)

/-- The part of a chunk a boot acquisition journals when its fold stopped short, as a verdict
on the mutation. Nothing covered means nothing journaled. -/
def truncatedMutation (r : Replica J) (entries : List LogEntry) (newCommitted committed : Nat) :
    SuffixCheck :=
  let covered := entries.filter fun entry => decide (entry.slot ≤ newCommitted)
  if covered.isEmpty then .install .none
  else r.checkSuffix covered newCommitted committed Slot.none

/-- The client operations a chunk newly commits. -/
def chunkApplies (r : Replica J) (covered : List LogEntry) (newCommitted : Nat) :
    Except PlanRefusal (List Effect) :=
  if r.progress.committed < newCommitted then
    r.applyEffectsMerged covered r.progress.committed newCommitted
  else .ok []

/-- The ballot a stopped boot acquisition walks into: the next era, when the fold reached it. -/
def walkTarget (r : Replica J) (acquisition : Bool) (folded : FoldedCommit) :
    Except PlanRefusal (Option Ballot) :=
  if acquisition && folded.stopped &&
      decide (r.progress.current.era < folded.config.current.era) then
    match r.progress.current.nextInNextEra with
    | none => .error (.progress .viewSuccessor)
    | some target => .ok (some target)
  else .ok none

def chunkCandidate (r : Replica J) (walkedView : Option Ballot) (accepted committed applied : Nat)
    (config : EraTable) (bump : Option Ballot) : Except PlanRefusal Progress :=
  match walkedView with
  | some target => r.walkedCandidate target accepted committed applied config
  | none => r.candidateWith r.progress.status accepted committed applied config bump

/-- The install of a chunk whose fold is done. `mutation` is what the suffix check allows. -/
def installChunk (r : Replica J) (sender : Nat) (view : Ballot) (entries : List LogEntry)
    (through : Nat) (more : Bool) (folded : FoldedCommit) (mutation : JournalMutation)
    (kind : InputKind) : Planned := do
  let current := r.progress.current
  let acquisition := r.bootAcquisition view
  let newCommitted := folded.covered
  let newAccepted :=
    if acquisition then max r.progress.accepted newCommitted else max r.progress.accepted through
  let truncated := acquisition && decide (newCommitted < through)
  let covered := entries.filter fun entry => decide (entry.slot ≤ newCommitted)
  let overlay := if truncated && !covered.isEmpty then covered else entries
  let applies ← r.chunkApplies covered newCommitted
  let walkedView ← r.walkTarget acquisition folded
  let applied ← r.appliedWalk overlay r.progress.applied newCommitted
  let candidate ← r.chunkCandidate walkedView newAccepted newCommitted applied folded.config
    (if acquisition then none else folded.bump)
  let fetchView := if acquisition then walkedView.getD current else view
  let onward :=
    more || walkedView.isSome || (truncated && decide (r.progress.accepted < newAccepted))
  let (asks, cursor) := chunkCursor fetchView sender newAccepted onward
  return (r.candidatePlan candidate mutation (applies ++ asks) kind false).withBookkeeping
    { transfer := cursor }

/-- **The install of a transferred chunk.** -/
def planNewState (r : Replica J) (sender : Nat) (message : Message) (entries : List LogEntry)
    (through committed : Nat) (more : Bool) (kind : InputKind) : Planned :=
  let header := message.header
  match r.progress.config.record header.view.era with
  | none => r.dropPlan (.unevaluableEra header.view.era) kind
  | some record =>
    if (record.config.weightOf sender).isNone then r.dropPlan (.unknownSender sender) kind
    else if header.slot ≠ through ∨ (more = false ∧ through < committed) ∨
        suffixShapeOk entries through = false ∨ (entries = [] ∧ more = true) then
      r.dropPlan .malformedTransfer kind
    else if !r.chunkQualified sender header.view then
      r.dropPlan (.staleTransfer sender header.view) kind
    else if committed < r.progress.committed then
      r.dropPlan (.staleEvidence header.view r.progress.current) kind
    else if through ≤ r.progress.accepted then
      -- Held already: a final duplicate closes the fetch.
      if more then r.dropPlan (.staleTransfer sender header.view) kind
      else do
        let plan ← r.emitPlan [] kind
        return plan.withBookkeeping { transfer := .clear }
    else
      match r.checkSuffix entries through committed Slot.none with
      | .gap expected got => r.dropPlan (.gapDetected expected got) kind
      | .conflict => r.breachPlan kind
      | .install mutation =>
        let newCommitted :=
          r.chunkCommit header.view committed (max r.progress.accepted through)
        match r.foldCommitted entries r.progress.committed newCommitted true with
        | .error (.unavailable slot) => .error (.journalEntryUnavailable slot)
        | .error .splitBatch => r.dropPlan .fuseRefusal kind
        | .error (.breach _ _) => r.breachPlan kind
        | .ok folded =>
          let verdict :=
            if r.bootAcquisition header.view && decide (folded.covered < through) then
              r.truncatedMutation entries folded.covered committed
            else .install mutation
          match verdict with
          | .gap expected got => r.dropPlan (.gapDetected expected got) kind
          | .conflict => r.breachPlan kind
          | .install mutation =>
            r.installChunk sender header.view entries through more folded mutation kind

end Replica

end UvrrCore
