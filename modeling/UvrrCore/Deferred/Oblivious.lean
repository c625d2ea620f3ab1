import UvrrCore.Draft.Dispatch

/-!
# Planning does not see the stability mode

What a replica plans is the same in every stability mode: only the publication looks at it. The
handlers that walk the journal by a recursion have a lemma each; the others are the same function
of the same records.
-/

namespace UvrrCore

namespace Replica

variable {J : Type}

/-- The replica run in another stability mode. -/
def withStability (r : Replica J) (stability : Stability) : Replica J :=
  { r with stability := stability }

variable [Journal J] (r : Replica J) (stability : Stability)

theorem follow_stability (era left slot : Nat) :
    commitSegment.follow (r.withStability stability) era left slot =
      commitSegment.follow r era left slot := by
  induction left generalizing slot with
  | zero => rfl
  | succ left ih =>
    rw [commitSegment.follow, commitSegment.follow]
    simp only [ih]
    rfl

theorem commitSegment_stability (next accepted : Nat) :
    (r.withStability stability).commitSegment next accepted = r.commitSegment next accepted := by
  unfold commitSegment
  simp only [follow_stability]
  rfl

theorem cascade_stability (vote : Option (Nat × Nat)) (rounds committed : Nat) :
    (r.withStability stability).cascade vote rounds committed =
      r.cascade vote rounds committed := by
  induction rounds generalizing committed with
  | zero => rfl
  | succ rounds ih =>
    rw [cascade, cascade]
    simp only [ih, commitSegment_stability]
    rfl

theorem commitBatchEffects_stability (through rounds slot : Nat) :
    (r.withStability stability).commitBatchEffects through rounds slot =
      r.commitBatchEffects through rounds slot := by
  induction rounds generalizing slot with
  | zero => rfl
  | succ rounds ih =>
    rw [commitBatchEffects, commitBatchEffects]
    simp only [ih, commitSegment_stability]
    rfl

theorem perimeterFold_stability (era left slot : Nat) (perimeter : Perimeter) :
    (r.withStability stability).perimeterFold era left slot perimeter =
      r.perimeterFold era left slot perimeter := by
  induction left generalizing slot perimeter with
  | zero => rfl
  | succ left ih =>
    rw [perimeterFold, perimeterFold]
    simp only [ih]
    rfl

theorem outstandingSystem_stability (left slot : Nat) :
    (r.withStability stability).outstandingSystem left slot = r.outstandingSystem left slot := by
  induction left generalizing slot with
  | zero => rfl
  | succ left ih =>
    rw [outstandingSystem, outstandingSystem]
    simp only [ih]
    rfl

theorem systemRun_stability (left slot : Nat) :
    (r.withStability stability).systemRun left slot = r.systemRun left slot := by
  induction left generalizing slot with
  | zero => rfl
  | succ left ih =>
    rw [systemRun, systemRun]
    simp only [ih]
    rfl

theorem stepsCommitted_stability (steps : List (List SystemOperation))
    (through rounds slot next : Nat) :
    (r.withStability stability).stepsCommitted steps through rounds slot next =
      r.stepsCommitted steps through rounds slot next := by
  induction rounds generalizing slot next with
  | zero => rfl
  | succ rounds ih =>
    rw [stepsCommitted, stepsCommitted]
    simp only [ih, systemRun_stability]
    rfl

theorem finishCommitQuorum_stability (committed : Nat) (oks : List (Nat × Nat))
    (kind : InputKind) :
    (r.withStability stability).finishCommitQuorum committed oks kind =
      r.finishCommitQuorum committed oks kind := by
  unfold finishCommitQuorum planExecutionCommit
  simp only [commitBatchEffects_stability, stepsCommitted_stability]
  rfl

theorem reconfigureGates_stability (op : SystemOperation) (slot : Nat) :
    (r.withStability stability).reconfigureGates op slot = r.reconfigureGates op slot := by
  unfold reconfigureGates
  simp only [outstandingSystem_stability]
  rfl

theorem stepPlannable_stability (op : SystemOperation) :
    (r.withStability stability).stepPlannable op = r.stepPlannable op := by
  unfold stepPlannable
  simp only [outstandingSystem_stability]
  rfl


theorem planReconfigure_stability (op : SystemOperation) (pivot : Option Pivot) :
    (r.withStability stability).planReconfigure op pivot = r.planReconfigure op pivot := by
  unfold planReconfigure
  simp only [reconfigureGates_stability]
  rfl

theorem planFuseBatch_stability (ops : List SystemOperation) :
    (r.withStability stability).planFuseBatch ops = r.planFuseBatch ops := by
  unfold planFuseBatch
  simp only [reconfigureGates_stability]
  rfl

theorem planStepProposal_stability (batch : SystemOperation) :
    (r.withStability stability).planStepProposal batch = r.planStepProposal batch := by
  unfold planStepProposal
  simp only [planFuseBatch_stability, planReconfigure_stability]

theorem planSubmitPlan_stability (plan : Plan) (kind : InputKind) :
    (r.withStability stability).planSubmitPlan plan kind = r.planSubmitPlan plan kind := by
  unfold planSubmitPlan planStepPlannable
  simp only [stepPlannable_stability, planStepProposal_stability]
  rfl

theorem planExecutionContinuation_stability  :
    (r.withStability stability).planExecutionContinuation  = r.planExecutionContinuation  := by
  unfold planExecutionContinuation planStepPlannable
  simp only [stepPlannable_stability, planStepProposal_stability]
  rfl

theorem planReincarnation_stability (sender : Nat) (message : Message) (kind : InputKind) :
    (r.withStability stability).planReincarnation sender message kind =
      r.planReincarnation sender message kind := by
  unfold planReincarnation forcedStepPlannable
  simp only [stepPlannable_stability, planReconfigure_stability]
  rfl

theorem planForcedContinuation_stability  :
    (r.withStability stability).planForcedContinuation  = r.planForcedContinuation  := by
  unfold planForcedContinuation forcedStepPlannable
  simp only [stepPlannable_stability, planReconfigure_stability]
  rfl

theorem planReincarnate_stability (old : Nat) (kind : InputKind) :
    (r.withStability stability).planReincarnate old kind = r.planReincarnate old kind := by
  unfold planReincarnate
  simp only [planReincarnation_stability]
  rfl

theorem planTick_stability (time : Nat) :
    (r.withStability stability).planTick time = r.planTick time := by
  unfold planTick
  simp only [planForcedContinuation_stability, planExecutionContinuation_stability]
  rfl

theorem countVote_stability (sender slot : Nat) (unknown learner foreign duplicate : Diagnostic)
    (kind : InputKind) :
    (r.withStability stability).countVote sender slot unknown learner foreign duplicate kind =
      r.countVote sender slot unknown learner foreign duplicate kind := by
  unfold countVote standingCommitFrontier commitCascadeFrontier
  simp only [cascade_stability, finishCommitQuorum_stability]
  rfl

theorem planPrepareOk_stability (sender : Nat) (message : Message) (kind : InputKind) :
    (r.withStability stability).planPrepareOk sender message kind =
      r.planPrepareOk sender message kind := by
  unfold planPrepareOk
  simp only [countVote_stability]
  rfl

theorem planFuseOk_stability (sender : Nat) (message : Message) (kind : InputKind) :
    (r.withStability stability).planFuseOk sender message kind =
      r.planFuseOk sender message kind := by
  unfold planFuseOk
  simp only [countVote_stability]
  rfl

theorem uncommittedRefusal_stability (config : EraTable) (committed : Nat) (entry : LogEntry) :
    (r.withStability stability).uncommittedRefusal config committed entry =
      r.uncommittedRefusal config committed entry := by
  unfold uncommittedRefusal perimeterRefusal
  simp only [perimeterFold_stability]

theorem planNextPrepare_stability (sender : Nat) (view : Ballot) (entry : LogEntry)
    (piggybacked : Nat) (status : Status) (kind : InputKind) :
    (r.withStability stability).planNextPrepare sender view entry piggybacked status kind =
      r.planNextPrepare sender view entry piggybacked status kind := by
  unfold planNextPrepare
  simp only [uncommittedRefusal_stability]
  rfl

theorem planPrepare_stability (sender : Nat) (message : Message) (entry : LogEntry)
    (piggybacked time : Nat) (kind : InputKind) :
    (r.withStability stability).planPrepare sender message entry piggybacked time kind =
      r.planPrepare sender message entry piggybacked time kind := by
  unfold planPrepare
  simp only [planNextPrepare_stability]
  rfl

theorem planBody_stability (sender : Nat) (message : Message) (time : Nat) (kind : InputKind) :
    (r.withStability stability).planBody sender message time kind =
      r.planBody sender message time kind := by
  unfold planBody
  simp only [planPrepare_stability, planPrepareOk_stability, planFuseOk_stability,
    planReincarnation_stability]
  rfl

theorem planPeer_stability (sender : Nat) (message : Message) (time : Nat) (kind : InputKind) :
    (r.withStability stability).planPeer sender message time kind =
      r.planPeer sender message time kind := by
  unfold planPeer
  simp only [planBody_stability]
  rfl

theorem plan_stability (input : TimedInput) :
    (r.withStability stability).plan input = r.plan input := by
  unfold plan
  simp only [planTick_stability, planPeer_stability, planReconfigure_stability,
    planReincarnate_stability, planSubmitPlan_stability]
  rfl

end Replica

end UvrrCore
