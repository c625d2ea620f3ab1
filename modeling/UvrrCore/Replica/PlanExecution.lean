import UvrrCore.Replica.Reconfiguration

/-!
# Executing an operator's plan

A leader that accepts a plan arms a machine and proposes its steps one by one: the first at
once when nothing is in the way, the others on ticks. A commit that covers the next step's
operations advances the machine (`planExecutionCommit`).
-/

namespace UvrrCore

namespace Replica

variable {J : Type} [Journal J]

/-- A transition that only answers the operator. -/
def adminVerdict (r : Replica J) (verdict : PlanVerdict) (kind : InputKind) : Planned :=
  r.emitPlan [.adminResponse verdict] kind

/-- Nothing is in the way of a proposal: no era transition, no uncommitted system entry, every
uncommitted entry readable, and the operation folds at the next slot. -/
def stepPlannable (r : Replica J) (op : SystemOperation) : Bool :=
  if r.progress.config.current.era ≠ r.progress.current.era then false
  else
    match r.outstandingSystem (r.progress.accepted - r.progress.committed)
        r.progress.committed with
    | .error _ | .ok (some _) => false
    | .ok none =>
      match Slot.next r.progress.accepted with
      | none => false
      | some slot =>
        match r.progress.config.extend op slot with
        | .ok _ => true
        | .error _ => false

def planStepPlannable (r : Replica J) (op : SystemOperation) : Bool := r.stepPlannable op

def planSubmitPlan (r : Replica J) (plan : Plan) (kind : InputKind) : Planned :=
  if !r.isLeader then r.adminVerdict (.rejected .notLeader) kind
  else
    match plan.validateAgainst r.progress.config.current.config with
    | .error rejection => r.adminVerdict (.rejected (.plan rejection)) kind
    | .ok () =>
      match plan.steps.head? with
      | none => r.adminVerdict .accepted kind
      | some step => do
        let machine : PlannedSequence := { steps := plan.steps, next := 0 }
        if r.planStepPlannable (.batch step) then
          let proposal ← r.planStepProposal (.batch step)
          return (proposal.withEffect (.adminResponse .accepted)).withPlanExecution (.set machine)
        else
          let answer ← r.adminVerdict .accepted kind
          return answer.withPlanExecution (.set machine)

/-- The next step on a tick, when a machine is armed and there is something to do. A step the
committed configuration refuses aborts the plan. -/
def planExecutionContinuation (r : Replica J) : Option Planned :=
  match r.planExecution with
  | none => none
  | some machine =>
    if !r.isLeader then none
    else
      match machine.steps[machine.next]? with
      | none => some (.error .panicked)
      | some step =>
        match r.progress.config.current.config.apply (.batch step) Slot.none with
        | .error _ => some do
          let plan ← r.dropPlan (.planAborted machine.next) .tick
          return plan.withPlanExecution .clear
        | .ok _ =>
          if r.planStepPlannable (.batch step) then some do
            let plan ← r.planStepProposal (.batch step)
            return plan.withPlanExecution (.set machine)
          else none

/-- The system entries that directly follow a slot, up to `through`. -/
def systemRun (r : Replica J) : (left slot : Nat) → List SystemOperation
  | 0, _ => []
  | left + 1, slot =>
    match Journal.get r.journal (slot + 1) with
    | none => []
    | some entry =>
      match entry.payload with
      | .operation _ _ => []
      | .system op => op :: r.systemRun left (slot + 1)

/-- The steps counted over a committed range: each run of system entries that is exactly the
next step's batch moves the machine on. -/
def stepsCommitted (r : Replica J) (steps : List (List SystemOperation)) (through : Nat) :
    (rounds slot next : Nat) → Nat
  | 0, _, next => next
  | rounds + 1, slot, next =>
    if through ≤ slot then next
    else
      match Journal.get r.journal (slot + 1) with
      | none => next
      | some entry =>
        match entry.payload with
        | .operation _ _ => r.stepsCommitted steps through rounds (slot + 1) next
        | .system op =>
          let follow := r.systemRun (through - (slot + 1)) (slot + 1)
          let batch :=
            if follow.isEmpty then
              match op with
              | .batch ops => some ops
              | _ => none
            else some (op :: follow)
          let next := if batch.isSome && batch == steps[next]? then next + 1 else next
          r.stepsCommitted steps through rounds (slot + 1 + follow.length) next

/-- What a commit of `(start, through]` does to the armed machine. -/
def planExecutionCommit (r : Replica J) (start through : Nat) : Update PlannedSequence :=
  match r.planExecution with
  | none => .unchanged
  | some machine =>
    let next := r.stepsCommitted machine.steps through (through - start) start machine.next
    if next = machine.next then .unchanged
    else if machine.steps.length ≤ next then .clear
    else .set { machine with next := next }

end Replica

end UvrrCore
