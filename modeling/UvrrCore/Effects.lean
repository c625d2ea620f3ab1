import UvrrCore.Invariant

/-!
# Effects, diagnostics and operator plans

What a transition releases to its host: messages to send, operations to apply, persistence
intents and answers to an operator. A `Diagnostic` names why an input was dropped.

`Plan` is an operator's list of reconfiguration steps, judged as a whole against the committed
configuration by `Plan.validateAgainst`.
-/

namespace UvrrCore

/-! ### Operator plans -/

structure Plan where
  initial : List Member
  steps : List (List SystemOperation)
deriving DecidableEq, Repr

inductive PlanRejection where
  | initialMembership (plan committed : List Member)
  | initialWeight (node plan committed : Nat)
  | step (index : Nat) (refusal : ConfigError)
deriving DecidableEq, Repr

/-- The steps folded one batch at a time; the first refusal with its position. -/
def foldSteps (config : Configuration) (steps : List (List SystemOperation)) :
    Except (Nat × ConfigError) Configuration :=
  go config 0 steps
where
  go (config : Configuration) (index : Nat) :
      List (List SystemOperation) → Except (Nat × ConfigError) Configuration
    | [] => .ok config
    | ops :: rest =>
      match config.apply (.batch ops) Slot.none with
      | .ok next => go next (index + 1) rest
      | .error refusal => .error (index, refusal)

/-- A plan starts from exactly the committed members and weights, and its steps fold. -/
def Plan.validateAgainst (plan : Plan) (current : Configuration) : Except PlanRejection Unit :=
  let committed := current.order
  if plan.initial.map Member.node ≠ committed.map Member.node then
    .error (.initialMembership plan.initial committed)
  else
    match (plan.initial.zip committed).find? fun pair => pair.1.weight != pair.2.weight with
    | some (member, actual) => .error (.initialWeight member.node member.weight actual.weight)
    | none =>
      match foldSteps current plan.steps with
      | .ok _ => .ok ()
      | .error (index, refusal) => .error (.step index refusal)

/-! ### Effects -/

/-- Why an operator's plan is refused. The source renders it as text. -/
inductive RejectionReason where
  | notLeader
  | plan (rejection : PlanRejection)
deriving DecidableEq, Repr

inductive PlanVerdict where
  | accepted
  | rejected (reason : RejectionReason)
deriving DecidableEq, Repr

inductive ProgressIntent where
  | unchanged
  | record
deriving DecidableEq, Repr

inductive JournalIntent where
  | unchanged
  | accept (start through : Nat)
  | installSuffix (start through : Nat)
deriving DecidableEq, Repr

structure PersistenceIntent where
  revision : Nat
  progress : ProgressIntent
  journal : JournalIntent
deriving DecidableEq, Repr

inductive Effect where
  | send (recipient era : Nat) (message : Message)
  | apply (slot : Nat) (operationId : OperationId) (payload : List UInt8)
  | persist (intent : PersistenceIntent)
  | adminResponse (verdict : PlanVerdict)
deriving DecidableEq, Repr

/-- How a host makes transitions durable: at once, or confirmed later. -/
inductive Stability where
  | volatile
  | deferred
  | forced
  | externalTransaction
deriving DecidableEq, Repr

inductive StabilityResult where
  | stable (receipt : List UInt8)
  | failed (reason : List UInt8)
  | indeterminate (reason : List UInt8)
deriving DecidableEq, Repr

/-! ### Diagnostics -/

inductive Diagnostic where
  | none
  | unevaluableEra (era : Nat)
  | senderNotPrimary (sender : Nat) (view : Ballot)
  | viewMismatch (got current : Ballot)
  | statusGate (got current : Ballot) (status : Status)
  | eraDiscipline (entry : Nat) (view : Ballot)
  | prepareSlotMismatch (header entry : Nat)
  | invalidSystemOperation (slot : Nat) (error : ConfigError)
  | conflictingEntry (slot : Nat)
  | gapDetected (expected got : Nat)
  | staleTransfer (sender : Nat) (view : Ballot)
  | malformedTransfer
  | transferNotServed (sender : Nat) (view : Ballot)
  | prepareOkNotPrimary (sender slot : Nat)
  | slotNotOutstanding (slot sender : Nat)
  | duplicatePrepareOk (slot sender : Nat)
  | unknownSender (sender : Nat)
  | learnerSender (sender : Nat)
  | reincarnationRefused (sender : Nat) (view : Ballot)
  | staleViewChange (got current : Ballot)
  | staleEvidence (got current : Ballot)
  | evidenceNotCollected (sender : Nat) (view : Ballot)
  | startViewNotFromPrimary (sender : Nat) (view : Ballot)
  | startViewFromStaleView (got current : Ballot)
  | malformedViewChange
  | planAborted (step : Nat)
  | fuseRefusal
deriving DecidableEq, Repr

end UvrrCore
